import Chronoplan.Proofs.Network.Gaps

/-!
# Blocks of spans

Spans that overlap or touch are joined into blocks. The blocks hold the instants that the spans hold
and no others, they lie in order with room between any two, and each begins where a span begins and
ends where one ends. The order in which the spans are given does not matter, since the sort leaves
only one order of spans with integer ends, and blocks are not joined any further.
-/

set_option autoImplicit false

namespace Chronoplan

namespace Number

theorem max_eq_or (a b : Number) : a.max b = a ∨ a.max b = b := by
  unfold Number.max
  split
  · exact .inr rfl
  · exact .inl rfl

end Number

namespace Slot

/-! ### Where blocks begin and end -/

/-- A block begins where one of the spans begins and ends where one of them ends. -/
def Bounded (spans : List Slot) (b : Slot) : Prop :=
  (∃ s ∈ spans, b.start = s.start) ∧ ∃ s ∈ spans, b.finish = s.finish

theorem bounded_of_mem {spans : List Slot} {s : Slot} (hs : s ∈ spans) : Bounded spans s :=
  ⟨⟨s, hs, rfl⟩, s, hs, rfl⟩

theorem absorb_bounded (spans blocks : List Slot) (s : Slot) (hs : s ∈ spans)
    (h : ∀ b ∈ blocks, Bounded spans b) : ∀ b ∈ absorb blocks s, Bounded spans b := by
  cases blocks with
  | nil =>
    intro b hb
    rw [List.mem_singleton.mp hb]
    exact bounded_of_mem hs
  | cons last rest =>
    obtain ⟨hlast, hrest⟩ := List.forall_mem_cons.mp h
    simp only [absorb]
    split
    · refine List.forall_mem_cons.mpr ⟨⟨hlast.1, ?_⟩, hrest⟩
      rcases last.finish.max_eq_or s.finish with kept | moved
      · rw [kept]
        exact hlast.2
      · rw [moved]
        exact ⟨s, hs, rfl⟩
    · exact List.forall_mem_cons.mpr ⟨bounded_of_mem hs, h⟩

theorem foldl_absorb_bounded (spans todo blocks : List Slot) (within : ∀ s ∈ todo, s ∈ spans)
    (h : ∀ b ∈ blocks, Bounded spans b) : ∀ b ∈ todo.foldl absorb blocks, Bounded spans b := by
  induction todo generalizing blocks with
  | nil => exact h
  | cons s todo ih =>
    obtain ⟨hs, later⟩ := List.forall_mem_cons.mp within
    exact ih (absorb blocks s) later (absorb_bounded spans blocks s hs h)

theorem merge_bounded (spans : List Slot) : ∀ b ∈ merge spans, Bounded spans b := by
  intro b hb
  apply foldl_absorb_bounded spans (stableSort before spans) []
  · intro s hs
    exact (stableSort_perm before spans).mem_iff.mp hs
  · simp
  · exact List.mem_reverse.mp hb

/-! ### The order of the spans -/

/-- Of spans with integer ends there is one ascending order. -/
theorem eq_of_ascending {l l' : List Slot} (whole : ∀ s ∈ l, s.Whole) (perm : l.Perm l')
    (h : Ascending (fun s => toLex (s.first, s.last)) l)
    (h' : Ascending (fun s => toLex (s.first, s.last)) l') : l = l' := by
  apply perm.eq_of_pairwise _ h h'
  intro s t hs ht le ge
  have ends : (s.first, s.last) = (t.first, t.last) := toLex.injective (le_antisymm le ge)
  have hs := whole s hs
  have ht := whole t (perm.mem_iff.mpr ht)
  obtain ⟨first, last⟩ := Prod.mk.inj ends
  rw [Slot.mk.injEq, hs.start_eq, hs.finish_eq, ht.start_eq, ht.finish_eq, first, last]
  exact ⟨rfl, rfl⟩

theorem merge_perm {spans spans' : List Slot} (whole : ∀ s ∈ spans, s.Whole)
    (perm : spans'.Perm spans) : merge spans' = merge spans := by
  have whole' : ∀ s ∈ spans', s.Whole := fun s hs => whole s (perm.mem_iff.mp hs)
  have sorted := stableSort_ascending spans (before_comparesBy spans whole)
  have sorted' := stableSort_ascending spans' (before_comparesBy spans' whole')
  have members := stableSort_perm before spans
  have members' := stableSort_perm before spans'
  have same : stableSort before spans' = stableSort before spans := by
    apply eq_of_ascending _ (members'.trans (perm.trans members.symm)) sorted' sorted
    intro s hs
    exact whole' s (members'.mem_iff.mp hs)
  rw [merge, merge, same]

/-! ### Spans with room between them -/

theorem stableSort_apart {spans : List Slot} (whole : ∀ s ∈ spans, s.Whole)
    (apart : spans.Pairwise fun s t => s.last < t.first) : stableSort before spans = spans := by
  have members := stableSort_perm before spans
  apply eq_of_ascending (fun s hs => whole s (members.mem_iff.mp hs)) members
  · exact stableSort_ascending spans (before_comparesBy spans whole)
  · apply apart.imp_of_mem
    intro s t hs _ room
    have order := (whole s hs).le
    apply le_of_lt
    rw [Prod.Lex.toLex_lt_toLex]
    exact .inl (order.trans_lt room)

theorem foldl_absorb_apart (spans blocks : List Slot) (whole : ∀ s ∈ spans, s.Whole)
    (hblocks : ∀ b ∈ blocks, b.Whole)
    (apart : (blocks.reverse ++ spans).Pairwise fun s t => s.last < t.first) :
    spans.foldl absorb blocks = spans.reverse ++ blocks := by
  induction spans generalizing blocks with
  | nil => rfl
  | cons s spans ih =>
    obtain ⟨hs, later⟩ := List.forall_mem_cons.mp whole
    -- The last block ends before the next span, so this begins a block of its own.
    have alone : absorb blocks s = s :: blocks := by
      cases blocks with
      | nil => rfl
      | cons block rest =>
        obtain ⟨hblock, -⟩ := List.forall_mem_cons.mp hblocks
        have room := (List.pairwise_append.mp apart).2.2 block (by simp) s List.mem_cons_self
        rw [absorb_cons_whole s block rest hs hblock, if_neg (by omega)]
    rw [List.foldl_cons, alone, ih (s :: blocks) later, List.reverse_cons, List.append_assoc]
    · rfl
    · exact List.forall_mem_cons.mpr ⟨hs, hblocks⟩
    · simpa using apart

theorem merge_apart {spans : List Slot} (whole : ∀ s ∈ spans, s.Whole)
    (apart : spans.Pairwise fun s t => s.last < t.first) : merge spans = spans := by
  rw [merge, stableSort_apart whole apart, foldl_absorb_apart spans [] whole (by simp) apart]
  simp

/-! ### The instants of the blocks -/

/-- An instant is in a span when the stretch between the integers around it meets the span. -/
theorem Whole.exists_stretch {s : Slot} (hs : s.Whole) {x : Number} (hx : s.Holds x) :
    ∃ k : ℤ, ∀ t : Slot, t.Whole → (t.Holds x ↔ ¬ t.Clear k (k + 1)) := by
  rw [Holds, hs.start_eq, hs.finish_eq] at hx
  obtain ⟨k, hk⟩ := Number.exists_floor s.first s.last x hx.1 hx.2
  refine ⟨k, fun t ht => ?_⟩
  rw [ht.holds_iff x k hk, ht.clear_iff]
  omega

/-- Spans that keep no stretch clear which others do not hold every instant of the others. -/
theorem exists_holds {spans blocks : List Slot} (whole : ∀ s ∈ spans, s.Whole)
    (whole' : ∀ b ∈ blocks, b.Whole)
    (clear : ∀ k : ℤ, (∀ b ∈ blocks, b.Clear k (k + 1)) → ∀ s ∈ spans, s.Clear k (k + 1))
    {x : Number} (h : ∃ s ∈ spans, s.Holds x) : ∃ b ∈ blocks, b.Holds x := by
  obtain ⟨s, hs, hx⟩ := h
  obtain ⟨k, stretch⟩ := (whole s hs).exists_stretch hx
  by_contra none
  apply (stretch s (whole s hs)).mp hx
  apply clear k _ s hs
  intro b hb
  by_contra meets
  exact none ⟨b, hb, (stretch b (whole' b hb)).mpr meets⟩

theorem merge_holds_iff {spans : List Slot} (whole : ∀ s ∈ spans, s.Whole) (x : Number) :
    (∃ s ∈ spans, s.Holds x) ↔ ∃ b ∈ merge spans, b.Holds x := by
  obtain ⟨blocks, -, clear⟩ := merge_spec spans whole
  constructor
  · exact exists_holds whole blocks fun k => (clear k (k + 1) (by omega)).mp
  · exact exists_holds blocks whole fun k => (clear k (k + 1) (by omega)).mpr

/-- Spans with integer ends are joined into blocks with integer ends. The blocks do not depend on
the order of the spans, each of them begins behind the end of the one before it, an instant is in a
block exactly when it is in a span, blocks begin and end where spans do, and joining them again
changes nothing. -/
theorem merge_blocks (spans : List Slot) (whole : ∀ s ∈ spans, s.Whole) :
    (∀ spans', spans'.Perm spans → merge spans' = merge spans) ∧
    (∀ b ∈ merge spans, b.Whole) ∧
    (merge spans).Pairwise (fun b c => b.finish.lt c.start = true) ∧
    (∀ x : Number, (∃ s ∈ spans, s.Holds x) ↔ ∃ b ∈ merge spans, b.Holds x) ∧
    (∀ b ∈ merge spans,
      (∃ s ∈ spans, b.start = s.start) ∧ ∃ s ∈ spans, b.finish = s.finish) ∧
    merge (merge spans) = merge spans := by
  obtain ⟨blocks, apart, -⟩ := merge_spec spans whole
  refine ⟨fun spans' => merge_perm whole, blocks, ?_, merge_holds_iff whole, merge_bounded spans,
    merge_apart blocks apart⟩
  apply apart.imp_of_mem
  intro b c hb hc room
  rw [(blocks b hb).finish_eq, (blocks c hc).start_eq, Number.lt_int, decide_eq_true_eq]
  exact room

end Slot

namespace Ferry

/-! ### Crossings of a ferry

Among them are some inside others, some that touch, one that is planned twice, and two at which the
ferry only calls. -/

def crossings : List Slot :=
  [⟨.int 4, .int 4⟩, ⟨.int 8, .int 11⟩, ⟨.int 0, .int 2⟩, ⟨.int 9, .int 10⟩, ⟨.int 2, .int 2⟩,
    ⟨.int 11, .int 12⟩, ⟨.int 8, .int 11⟩]

theorem crossings_blocks :
    (∀ s ∈ crossings, s.Whole) ∧
    Slot.merge crossings = [⟨.int 0, .int 2⟩, ⟨.int 4, .int 4⟩, ⟨.int 8, .int 12⟩] ∧
    Slot.merge crossings.reverse = Slot.merge crossings ∧
    (∃ b ∈ Slot.merge crossings, b.Holds (.ratio (21 / 2))) ∧
    (¬ ∃ b ∈ Slot.merge crossings, b.Holds (.int 4)) ∧
    Slot.merge (Slot.merge crossings) = Slot.merge crossings := by
  have whole : ∀ s ∈ crossings, s.Whole := by simp [crossings, Slot.Whole]
  obtain ⟨perm, -, -, instants, -, again⟩ := Slot.merge_blocks crossings whole
  refine ⟨whole, by decide +kernel, perm _ crossings.reverse_perm, ?_, ?_, again⟩
  · exact (instants (.ratio (21 / 2))).mp (by decide +kernel)
  · exact mt (instants (.int 4)).mpr (by decide)

end Ferry

end Chronoplan
