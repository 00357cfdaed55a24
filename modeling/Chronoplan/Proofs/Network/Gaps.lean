import Chronoplan.Proofs.Network.Readings
import Chronoplan.Proofs.Sorting.Order

/-!
# Gaps between spans

Spans with integer ends merge into blocks with room between them, and a stretch keeps clear of all
blocks exactly when it keeps clear of all spans. The sweep over the blocks then leaves the gaps in
order, and a stretch of the window lies in one gap exactly when it is clear. A stretch from an
integer to the next one stands for all instants between the two, so the gaps hold the instants that
no span holds.
-/

set_option autoImplicit false

namespace Chronoplan

namespace Number

theorem alike_int (m n : ℤ) : (int m).alike (int n) = decide (m = n) := by simp [alike]

/-- An instant between integers lies somewhere on the line. -/
theorem exists_place (a b : ℤ) (x : Number) (low : (int a).le x = true)
    (high : x.lt (.int b) = true) : ∃ q, x.place? = some (.line q) := by
  cases x with
  | bool c => exact ⟨_, rfl⟩
  | int n => exact ⟨_, rfl⟩
  | ratio q => exact ⟨_, rfl⟩
  | float y =>
    cases y with
    | finite q => exact ⟨_, rfl⟩
    | negZero => exact ⟨_, rfl⟩
    | nan c => simp [le, lt, eq, place?] at low
    | posInf => simp [lt, place?, Place.lt] at high
    | negInf => simp [le, lt, eq, place?, Place.lt] at low

/-- Integers compare with an instant between integers as they do with the last one up to it. -/
theorem exists_floor (a b : ℤ) (x : Number) (low : (int a).le x = true)
    (high : x.lt (.int b) = true) :
    ∃ k : ℤ, ∀ m : ℤ, ((int m).le x = true ↔ m ≤ k) ∧ (x.lt (.int m) = true ↔ k < m) := by
  obtain ⟨q, hq⟩ := exists_place a b x low high
  have place (m : ℤ) : (int m).place? = some (.line m) := rfl
  refine ⟨⌊q⌋, fun m => ⟨?_, ?_⟩⟩
  · rw [Int.le_floor, le, lt_of_place (place m) hq, eq_of_place (place m) hq]
    simp [Place.lt, le_iff_lt_or_eq]
  · rw [Int.floor_lt, lt_of_place hq (place m)]
    simp [Place.lt]

end Number

namespace Slot

/-- The span goes from an integer to one that is no smaller. -/
def Whole (s : Slot) : Prop := ∃ a b : ℤ, a ≤ b ∧ s = ⟨.int a, .int b⟩

/-- The span does not overlap the stretch from `a` to `b`. An empty span inside it does. -/
def Clear (a b : ℤ) (s : Slot) : Prop := overlaps s.start s.finish (.int a) (.int b) = false

/-- The whole stretch from `a` to `b` lies in the slot. -/
def Covers (a b : ℤ) (g : Slot) : Prop :=
  g.start.le (.int a) = true ∧ (Number.int b).le g.finish = true

/-- The instant lies in the half-open span. -/
def Holds (x : Number) (s : Slot) : Prop := s.start.le x = true ∧ x.lt s.finish = true

instance (x : Number) (s : Slot) : Decidable (s.Holds x) := inferInstanceAs (Decidable (_ ∧ _))

/-- The integer a span begins at. -/
def first (s : Slot) : ℤ := s.start.toInt?.getD 0

/-- The integer a span ends at. -/
def last (s : Slot) : ℤ := s.finish.toInt?.getD 0

@[simp] theorem first_int (a : ℤ) (f : Number) : first ⟨.int a, f⟩ = a := rfl

@[simp] theorem last_int (s : Number) (b : ℤ) : last ⟨s, .int b⟩ = b := rfl

theorem Whole.start_eq {s : Slot} (h : s.Whole) : s.start = .int s.first := by
  obtain ⟨a, b, -, rfl⟩ := h
  rfl

theorem Whole.finish_eq {s : Slot} (h : s.Whole) : s.finish = .int s.last := by
  obtain ⟨a, b, -, rfl⟩ := h
  rfl

theorem Whole.le {s : Slot} (h : s.Whole) : s.first ≤ s.last := by
  obtain ⟨a, b, hab, rfl⟩ := h
  exact hab

theorem Whole.clear_iff {s : Slot} (h : s.Whole) (a b : ℤ) :
    s.Clear a b ↔ b ≤ s.first ∨ s.last ≤ a := by
  rw [Clear, h.start_eq, h.finish_eq, Network.overlaps_int]

theorem Whole.holds_iff {s : Slot} (h : s.Whole) (x : Number) (k : ℤ)
    (hk : ∀ m : ℤ, ((Number.int m).le x = true ↔ m ≤ k) ∧ (x.lt (.int m) = true ↔ k < m)) :
    s.Holds x ↔ s.first ≤ k ∧ k < s.last := by
  rw [Holds, h.start_eq, h.finish_eq, (hk s.first).1, (hk s.last).2]

/-! ### Merging -/

theorem before_comparesBy (spans : List Slot) (whole : ∀ s ∈ spans, s.Whole) :
    ComparesBy (fun s => toLex (s.first, s.last)) before spans := by
  intro s hs t ht
  rw [before, (whole s hs).start_eq, (whole s hs).finish_eq, (whole t ht).start_eq,
    (whole t ht).finish_eq, Number.alike_int, Number.lt_int, Number.lt_int]
  by_cases same : s.first = t.first
  · simp [Prod.Lex.toLex_lt_toLex, same]
  · simp [Prod.Lex.toLex_lt_toLex, same]

/-- Blocks as the sweep has them, the last one first: with room between any two. -/
structure Stacked (blocks : List Slot) : Prop where
  whole : ∀ b ∈ blocks, b.Whole
  apart : blocks.Pairwise fun later earlier => earlier.last < later.first

theorem absorb_cons_whole (s block : Slot) (rest : List Slot) (hs : s.Whole) (hb : block.Whole) :
    absorb (block :: rest) s =
      if s.first ≤ block.last then ⟨.int block.first, .int (max block.last s.last)⟩ :: rest
      else s :: block :: rest := by
  rw [absorb, hs.start_eq, hs.finish_eq, hb.start_eq, hb.finish_eq, Number.le_int, max_int]
  simp

theorem Stacked.absorb {blocks : List Slot} (h : Stacked blocks) (s : Slot) (hs : s.Whole)
    (low : ∀ b ∈ blocks, b.first ≤ s.first) :
    Stacked (absorb blocks s) ∧ ∀ b ∈ Slot.absorb blocks s, b.first ≤ s.first := by
  cases blocks with
  | nil =>
    have alone : Slot.absorb [] s = [s] := rfl
    rw [alone]
    exact ⟨⟨by simpa using hs, List.pairwise_singleton _ s⟩, by simp⟩
  | cons block rest =>
    obtain ⟨hblock, hrest⟩ := List.forall_mem_cons.mp h.whole
    obtain ⟨below, apart⟩ := List.pairwise_cons.mp h.apart
    obtain ⟨lowest, low⟩ := List.forall_mem_cons.mp low
    have order := hblock.le
    rw [absorb_cons_whole s block rest hs hblock]
    split
    · refine ⟨⟨List.forall_mem_cons.mpr ⟨⟨_, _, ?_, rfl⟩, hrest⟩, ?_⟩, ?_⟩
      · omega
      · exact List.pairwise_cons.mpr ⟨below, apart⟩
      · exact List.forall_mem_cons.mpr ⟨lowest, low⟩
    · next past =>
      refine ⟨⟨List.forall_mem_cons.mpr ⟨hs, h.whole⟩, List.pairwise_cons.mpr ⟨?_, h.apart⟩⟩, ?_⟩
      · intro b hb
        rcases List.mem_cons.mp hb with rfl | hb
        · exact not_le.mp past
        · have earlier := below b hb
          omega
      · exact List.forall_mem_cons.mpr ⟨le_rfl, List.forall_mem_cons.mpr ⟨lowest, low⟩⟩

/-- A stretch is clear of the blocks with one more span exactly when it is clear of both. -/
theorem Stacked.clear_absorb {blocks : List Slot} (h : Stacked blocks) (s : Slot) (hs : s.Whole)
    (low : ∀ b ∈ blocks, b.first ≤ s.first) (a b : ℤ) (hab : a < b) :
    (∀ k ∈ Slot.absorb blocks s, k.Clear a b) ↔ s.Clear a b ∧ ∀ k ∈ blocks, k.Clear a b := by
  cases blocks with
  | nil => simp [Slot.absorb]
  | cons block rest =>
    obtain ⟨hblock, -⟩ := List.forall_mem_cons.mp h.whole
    obtain ⟨lowest, -⟩ := List.forall_mem_cons.mp low
    have order := hblock.le
    have order' := hs.le
    rw [absorb_cons_whole s block rest hs hblock]
    split
    · next joined =>
      have grown : Whole ⟨.int block.first, .int (max block.last s.last)⟩ :=
        ⟨_, _, by omega, rfl⟩
      rw [List.forall_mem_cons, List.forall_mem_cons, ← and_assoc, grown.clear_iff, hs.clear_iff,
        hblock.clear_iff, first_int, last_int]
      apply and_congr_left'
      omega
    · rw [List.forall_mem_cons]

theorem Stacked.foldl_absorb (spans : List Slot) {blocks : List Slot} (h : Stacked blocks)
    (whole : ∀ s ∈ spans, s.Whole) (sorted : spans.Pairwise fun s t => s.first ≤ t.first)
    (low : ∀ b ∈ blocks, ∀ s ∈ spans, b.first ≤ s.first) :
    Stacked (spans.foldl Slot.absorb blocks) ∧ ∀ a b, a < b →
      ((∀ k ∈ spans.foldl Slot.absorb blocks, k.Clear a b) ↔
        (∀ s ∈ spans, s.Clear a b) ∧ ∀ k ∈ blocks, k.Clear a b) := by
  induction spans generalizing blocks with
  | nil => simpa using h
  | cons s spans ih =>
    obtain ⟨hs, whole⟩ := List.forall_mem_cons.mp whole
    obtain ⟨least, sorted⟩ := List.pairwise_cons.mp sorted
    have below : ∀ b ∈ blocks, b.first ≤ s.first := fun b hb => low b hb s List.mem_cons_self
    obtain ⟨stacked, next⟩ := h.absorb s hs below
    obtain ⟨stacked', clear⟩ := ih stacked whole sorted fun b hb t ht =>
      (next b hb).trans (least t ht)
    refine ⟨stacked', fun a b hab => ?_⟩
    rw [List.foldl_cons, clear a b hab, h.clear_absorb s hs below a b hab, List.forall_mem_cons]
    tauto

section

variable (spans : List Slot) (whole : ∀ s ∈ spans, s.Whole)
include whole

theorem merge_spec :
    (∀ k ∈ merge spans, k.Whole) ∧ (merge spans).Pairwise (fun b c => b.last < c.first) ∧
      ∀ a b, a < b → ((∀ k ∈ merge spans, k.Clear a b) ↔ ∀ s ∈ spans, s.Clear a b) := by
  have members : ∀ s, s ∈ stableSort before spans ↔ s ∈ spans := fun s =>
    (stableSort_perm before spans).mem_iff
  have sorted := stableSort_ascending spans (before_comparesBy spans whole)
  have nothing : Stacked [] := ⟨by simp, .nil⟩
  obtain ⟨stacked, clear⟩ := nothing.foldl_absorb (stableSort before spans)
    (fun s hs => whole s ((members s).mp hs))
    (sorted.imp fun h => Prod.Lex.monotone_fst _ _ h) (by simp)
  refine ⟨fun k hk => stacked.whole k (List.mem_reverse.mp hk),
    List.pairwise_reverse.mpr stacked.apart, fun a b hab => ?_⟩
  simpa [merge, members] using clear a b hab

end

/-! ### The sweep -/

/-- A slot from an integer to an integer or without limit, not empty and inside a window. -/
def Inside (h0 : ℤ) (h1 : WithTop ℤ) (g : Slot) : Prop :=
  ∃ (a : ℤ) (e : WithTop ℤ), g = ⟨.int a, .ofDistance e⟩ ∧ h0 ≤ a ∧ (a : WithTop ℤ) < e ∧ e ≤ h1

theorem Inside.mono {h0 k0 : ℤ} {h1 : WithTop ℤ} {g : Slot} (h : g.Inside k0 h1) (le : h0 ≤ k0) :
    g.Inside h0 h1 := by
  obtain ⟨a, e, rfl, low, rest⟩ := h
  exact ⟨a, e, rfl, le.trans low, rest⟩

theorem covers_iff (a b s : ℤ) (e : WithTop ℤ) :
    Covers a b ⟨.int s, .ofDistance e⟩ ↔ s ≤ a ∧ (b : WithTop ℤ) ≤ e := by
  rw [Covers, Number.le_int, ← Number.ofDistance_coe, Number.le_ofDistance, decide_eq_true_eq,
    decide_eq_true_eq]

theorem gapsFrom_nil_int (h : WithTop ℤ) (cursor : ℤ) :
    gapsFrom (.ofDistance h) (.int cursor) [] =
      if (cursor : WithTop ℤ) < h then [⟨.int cursor, .ofDistance h⟩] else [] := by
  rw [gapsFrom, ← Number.ofDistance_coe, Number.lt_ofDistance]
  simp

theorem gapsFrom_nil_inside (h : WithTop ℤ) (cursor : ℤ) :
    ∀ g ∈ gapsFrom (.ofDistance h) (.int cursor) [], g.Inside cursor h := by
  intro g hg
  rw [gapsFrom_nil_int] at hg
  split at hg
  · next room =>
    obtain rfl := List.mem_singleton.mp hg
    exact ⟨cursor, h, rfl, le_rfl, room, le_rfl⟩
  · cases hg

theorem gapsFrom_nil_ordered (h : WithTop ℤ) (cursor : ℤ) :
    (gapsFrom (.ofDistance h) (.int cursor) []).Pairwise
      fun g k => g.finish.le k.start = true := by
  rw [gapsFrom_nil_int]
  split_ifs
  · exact List.pairwise_singleton _ _
  · exact .nil

theorem gapsFrom_nil_covers (h : WithTop ℤ) (cursor a b : ℤ) (low : cursor ≤ a) (hab : a < b)
    (high : (b : WithTop ℤ) ≤ h) :
    ∃ g ∈ gapsFrom (.ofDistance h) (.int cursor) [], g.Covers a b := by
  have room : (cursor : WithTop ℤ) < h := (WithTop.coe_lt_coe.mpr (by omega)).trans_le high
  rw [gapsFrom_nil_int, if_pos room]
  exact ⟨_, List.mem_cons_self, (covers_iff a b cursor h).mpr ⟨low, high⟩⟩

theorem gapsFrom_cons_whole (h : WithTop ℤ) (cursor : ℤ) (block : Slot) (rest : List Slot)
    (hb : block.Whole) :
    gapsFrom (.ofDistance h) (.int cursor) (block :: rest) =
      if block.last ≤ cursor then gapsFrom (.ofDistance h) (.int cursor) rest
      else if h ≤ block.first then gapsFrom (.ofDistance h) (.int cursor) []
      else (if cursor < block.first then [⟨.int cursor, .int block.first⟩] else []) ++
        gapsFrom (.ofDistance h) (.int block.last) rest := by
  have limit : (Number.ofDistance h).le (.int block.first) = decide (h ≤ block.first) :=
    Number.le_ofDistance h block.first
  simp only [gapsFrom, hb.start_eq, hb.finish_eq, Number.le_int, Number.lt_int, limit, max_int]
  by_cases past : block.last ≤ cursor
  · simp [past]
  · have onward : max cursor block.last = block.last := by omega
    rw [onward]
    by_cases beyond : h ≤ block.first
    · simp [past, beyond]
    · by_cases room : cursor < block.first <;> simp [past, beyond, room]

section

variable (h : WithTop ℤ) (blocks : List Slot) (whole : ∀ b ∈ blocks, b.Whole)
include whole

theorem gapsFrom_inside (cursor : ℤ) :
    ∀ g ∈ gapsFrom (.ofDistance h) (.int cursor) blocks, g.Inside cursor h := by
  induction blocks generalizing cursor with
  | nil => exact gapsFrom_nil_inside h cursor
  | cons block rest ih =>
    obtain ⟨hb, whole⟩ := List.forall_mem_cons.mp whole
    intro g hg
    rw [gapsFrom_cons_whole h cursor block rest hb] at hg
    split_ifs at hg with past beyond room
    · exact ih whole cursor g hg
    · exact gapsFrom_nil_inside h cursor g hg
    · rcases List.mem_append.mp hg with hg | hg
      · obtain rfl := List.mem_singleton.mp hg
        exact ⟨cursor, block.first, rfl, le_rfl, WithTop.coe_lt_coe.mpr room,
          (not_le.mp beyond).le⟩
      · exact (ih whole block.last g hg).mono (not_le.mp past).le
    · exact (ih whole block.last g hg).mono (not_le.mp past).le

theorem gapsFrom_ordered (cursor : ℤ) :
    (gapsFrom (.ofDistance h) (.int cursor) blocks).Pairwise
      fun g k => g.finish.le k.start = true := by
  induction blocks generalizing cursor with
  | nil => exact gapsFrom_nil_ordered h cursor
  | cons block rest ih =>
    obtain ⟨hb, whole⟩ := List.forall_mem_cons.mp whole
    have later := ih whole block.last
    rw [gapsFrom_cons_whole h cursor block rest hb]
    split_ifs with past beyond room
    · exact ih whole cursor
    · exact gapsFrom_nil_ordered h cursor
    · apply List.pairwise_cons.mpr
      refine ⟨fun g hg => ?_, later⟩
      obtain ⟨a, e, rfl, low, -⟩ := gapsFrom_inside h rest whole block.last g hg
      rw [Number.le_int, decide_eq_true_eq]
      exact hb.le.trans low
    · exact later

/-- A stretch of the window lies in one gap exactly when it is clear of the blocks. -/
theorem gapsFrom_covers (apart : blocks.Pairwise fun b c => b.last < c.first) (cursor a b : ℤ)
    (low : cursor ≤ a) (hab : a < b) (high : (b : WithTop ℤ) ≤ h) :
    (∃ g ∈ gapsFrom (.ofDistance h) (.int cursor) blocks, g.Covers a b) ↔
      ∀ k ∈ blocks, k.Clear a b := by
  induction blocks generalizing cursor with
  | nil => simpa using gapsFrom_nil_covers h cursor a b low hab high
  | cons block rest ih =>
    obtain ⟨hb, whole⟩ := List.forall_mem_cons.mp whole
    obtain ⟨next, apart⟩ := List.pairwise_cons.mp apart
    have order := hb.le
    -- Before the block all later blocks are out of the way.
    have early : b ≤ block.first → ∀ k ∈ rest, k.Clear a b := by
      intro before k hk
      have behind := next k hk
      exact ((whole k hk).clear_iff a b).mpr (.inl (by omega))
    -- What lies in a later gap lies behind the block.
    have late : (∃ g ∈ gapsFrom (.ofDistance h) (.int block.last) rest, g.Covers a b) ↔
        block.last ≤ a ∧ ∀ k ∈ rest, k.Clear a b := by
      constructor
      · rintro ⟨g, hg, covers⟩
        have behind : block.last ≤ a := by
          obtain ⟨s, e, rfl, start, -⟩ := gapsFrom_inside h rest whole block.last g hg
          exact start.trans ((covers_iff a b s e).mp covers).1
        exact ⟨behind, (ih whole apart block.last behind).mp ⟨g, hg, covers⟩⟩
      · rintro ⟨behind, clear⟩
        exact (ih whole apart block.last behind).mpr clear
    rw [gapsFrom_cons_whole h cursor block rest hb, List.forall_mem_cons, hb.clear_iff]
    split_ifs with past beyond room
    · rw [ih whole apart cursor low]
      exact (and_iff_right (.inr (past.trans low))).symm
    · have before : b ≤ block.first := WithTop.coe_le_coe.mp (high.trans beyond)
      exact iff_of_true (gapsFrom_nil_covers h cursor a b low hab high) ⟨.inl before, early before⟩
    · have here : Covers a b ⟨.int cursor, .int block.first⟩ ↔ b ≤ block.first := by
        rw [← WithTop.coe_le_coe]
        exact (covers_iff a b cursor block.first).trans (and_iff_right low)
      rw [List.singleton_append, List.exists_mem_cons_iff, here, late]
      tauto
    · have within : ¬ b ≤ block.first := by omega
      rw [List.nil_append, late]
      tauto

end

/-! ### The window -/

section

variable (spans : List Slot) (whole : ∀ s ∈ spans, s.Whole)
include whole

theorem gaps_inside (h0 : ℤ) (h1 : WithTop ℤ) :
    ∀ g ∈ gaps spans (.ofDistance h1) (.int h0), g.Inside h0 h1 :=
  gapsFrom_inside h1 (merge spans) (merge_spec spans whole).1 h0

theorem gaps_ordered (h0 : ℤ) (h1 : WithTop ℤ) :
    (gaps spans (.ofDistance h1) (.int h0)).Pairwise fun g k => g.finish.le k.start = true :=
  gapsFrom_ordered h1 (merge spans) (merge_spec spans whole).1 h0

theorem gaps_of_le (h0 : ℤ) (h1 : WithTop ℤ) (empty : h1 ≤ h0) :
    gaps spans (.ofDistance h1) (.int h0) = [] := by
  rw [List.eq_nil_iff_forall_not_mem]
  intro g hg
  obtain ⟨a, e, -, low, nonempty, high⟩ := gaps_inside spans whole h0 h1 g hg
  have back : (a : WithTop ℤ) < h0 := nonempty.trans_le (high.trans empty)
  exact absurd (WithTop.coe_lt_coe.mp back) (not_lt.mpr low)

/-- A stretch of the window lies in one gap exactly when it is clear of all spans. -/
theorem gaps_covers (h0 : ℤ) (h1 : WithTop ℤ) (a b : ℤ) (low : h0 ≤ a) (hab : a < b)
    (high : (b : WithTop ℤ) ≤ h1) :
    (∃ g ∈ gaps spans (.ofDistance h1) (.int h0), g.Covers a b) ↔ ∀ s ∈ spans, s.Clear a b := by
  obtain ⟨blocks, apart, clear⟩ := merge_spec spans whole
  rw [← clear a b hab]
  exact gapsFrom_covers h1 (merge spans) blocks apart h0 a b low hab high

/-- No stretch lies in two gaps. -/
theorem gaps_covers_unique (h0 : ℤ) (h1 : WithTop ℤ) (a b : ℤ) (hab : a < b) (g k : Slot)
    (hg : g ∈ gaps spans (.ofDistance h1) (.int h0))
    (hk : k ∈ gaps spans (.ofDistance h1) (.int h0)) (covers : g.Covers a b)
    (covers' : k.Covers a b) : g = k := by
  have inside := gaps_inside spans whole h0 h1
  have apart : (gaps spans (.ofDistance h1) (.int h0)).Pairwise
      fun g k => ¬ (g.Covers a b ∧ k.Covers a b) := by
    apply (gaps_ordered spans whole h0 h1).imp_of_mem
    rintro g k hg hk order ⟨first, second⟩
    obtain ⟨s, e, rfl, -⟩ := inside g hg
    obtain ⟨t, f, rfl, -⟩ := inside k hk
    have upto : (b : WithTop ℤ) ≤ e := ((covers_iff a b s e).mp first).2
    have onward : t ≤ a := ((covers_iff a b t f).mp second).1
    have between : e ≤ (t : WithTop ℤ) :=
      decide_eq_true_iff.mp ((Number.le_ofDistance e t).symm.trans order)
    have back : b ≤ t := WithTop.coe_le_coe.mp (upto.trans between)
    omega
  have swap : Std.Symm fun g k : Slot => ¬ (g.Covers a b ∧ k.Covers a b) :=
    ⟨fun _ _ h both => h both.symm⟩
  by_contra distinct
  exact apart.forall hg hk distinct ⟨covers, covers'⟩

/-- Where a gap is, no span is. -/
theorem gaps_clear (h0 : ℤ) (h1 : WithTop ℤ) (g : Slot)
    (hg : g ∈ gaps spans (.ofDistance h1) (.int h0)) :
    ∀ s ∈ spans, overlaps s.start s.finish g.start g.finish = false := by
  obtain ⟨a, e, rfl, low, nonempty, high⟩ := gaps_inside spans whole h0 h1 g hg
  intro s hs
  have ends := whole s hs
  rw [ends.start_eq, ends.finish_eq, overlaps, ← Number.ofDistance_coe, Number.lt_ofDistance,
    Number.lt_int, Bool.and_eq_false_iff, decide_eq_false_iff_not, decide_eq_false_iff_not]
  by_contra meet
  obtain ⟨before, behind⟩ : ((s.first : ℤ) : WithTop ℤ) < e ∧ a < s.last := by
    simpa [not_or] using meet
  -- The gap has room for the first instant that it would share with the span.
  have upto : ((max a s.first + 1 : ℤ) : WithTop ℤ) ≤ e := by
    cases e using WithTop.recTopCoe with
    | top => exact le_top
    | coe e =>
      rw [WithTop.coe_lt_coe] at nonempty before
      rw [WithTop.coe_le_coe]
      omega
  have clear := (gaps_covers spans whole h0 h1 a (max a s.first + 1) low (by omega)
    (upto.trans high)).mp ⟨_, hg, (covers_iff _ _ a e).mpr ⟨le_rfl, upto⟩⟩ s hs
  have apart := (ends.clear_iff _ _).mp clear
  omega

/-- In a finite window the gaps go from integer to integer. -/
theorem gaps_finite (h0 h1 : ℤ) (g : Slot) (hg : g ∈ gaps spans (.int h1) (.int h0)) :
    ∃ a b : ℤ, g = ⟨.int a, .int b⟩ ∧ h0 ≤ a ∧ a < b ∧ b ≤ h1 := by
  obtain ⟨a, e, rfl, low, nonempty, high⟩ := gaps_inside spans whole h0 h1 g hg
  cases e using WithTop.recTopCoe with
  | top => exact absurd high (not_le.mpr (WithTop.coe_lt_top h1))
  | coe b => exact ⟨a, b, rfl, low, WithTop.coe_lt_coe.mp nonempty, WithTop.coe_le_coe.mp high⟩

theorem gaps_whole (h0 h1 : ℤ) : ∀ g ∈ gaps spans (.int h1) (.int h0), g.Whole := by
  intro g hg
  obtain ⟨a, b, rfl, -, nonempty, -⟩ := gaps_finite spans whole h0 h1 g hg
  exact ⟨a, b, nonempty.le, rfl⟩

/-- A gap holds an instant exactly when it covers the stretch between integers around it. -/
theorem gaps_holds_iff (h0 h1 : ℤ) (x : Number) (low : (Number.int h0).le x = true)
    (high : x.lt (.int h1) = true) : ∃ k : ℤ, h0 ≤ k ∧ k < h1 ∧
    (∀ g ∈ gaps spans (.int h1) (.int h0), g.Holds x ↔ g.Covers k (k + 1)) ∧
    ∀ s ∈ spans, s.Holds x ↔ ¬ s.Clear k (k + 1) := by
  obtain ⟨k, hk⟩ := Number.exists_floor h0 h1 x low high
  refine ⟨k, (hk h0).1.mp low, (hk h1).2.mp high, fun g hg => ?_, fun s hs => ?_⟩
  · have ends := gaps_whole spans whole h0 h1 g hg
    rw [ends.holds_iff x k hk, Covers, ends.start_eq, ends.finish_eq, Number.le_int,
      Number.le_int, decide_eq_true_eq, decide_eq_true_eq, Int.add_one_le_iff]
  · rw [(whole s hs).holds_iff x k hk, (whole s hs).clear_iff]
    omega

end

/-- The gaps of a window of integers are the parts of it, in order, that no span holds: an instant
of the window lies in exactly one gap where no span holds it, and in none where one does. -/
theorem gaps_complement (spans : List Slot) (whole : ∀ s ∈ spans, s.Whole) (h0 h1 : ℤ) :
    (∀ g ∈ gaps spans (.int h1) (.int h0),
      ∃ a b : ℤ, g = ⟨.int a, .int b⟩ ∧ h0 ≤ a ∧ a < b ∧ b ≤ h1) ∧
    (gaps spans (.int h1) (.int h0)).Pairwise (fun g k => g.finish.le k.start = true) ∧
    (∀ x : Number, (Number.int h0).le x = true → x.lt (.int h1) = true →
      ((∀ s ∈ spans, ¬ s.Holds x) → ∃! g, g ∈ gaps spans (.int h1) (.int h0) ∧ g.Holds x) ∧
      ((∃ s ∈ spans, s.Holds x) → ∀ g ∈ gaps spans (.int h1) (.int h0), ¬ g.Holds x)) ∧
    (h1 ≤ h0 → gaps spans (.int h1) (.int h0) = []) := by
  refine ⟨gaps_finite spans whole h0 h1, gaps_ordered spans whole h0 h1, fun x low high => ?_,
    fun empty => ?_⟩
  · obtain ⟨k, after, before, gap, span⟩ := gaps_holds_iff spans whole h0 h1 x low high
    have covers := gaps_covers spans whole h0 h1 k (k + 1) after (by omega)
      (WithTop.coe_le_coe.mpr (by omega))
    constructor
    · intro free
      obtain ⟨g, hg, here⟩ := covers.mpr fun s hs => not_not.mp fun busy =>
        free s hs ((span s hs).mpr busy)
      refine ⟨g, ⟨hg, (gap g hg).mpr here⟩, ?_⟩
      rintro g' ⟨hg', holds⟩
      exact gaps_covers_unique spans whole h0 h1 k (k + 1) (by omega) g' g hg' hg
        ((gap g' hg').mp holds) here
    · rintro ⟨s, hs, busy⟩ g hg holds
      exact (span s hs).mp busy (covers.mp ⟨g, hg, (gap g hg).mp holds⟩ s hs)
  · exact gaps_of_le spans whole h0 h1 (WithTop.coe_le_coe.mpr empty)

/-- A day with spans out of order that overlap, touch, are empty, or pass an end of it. -/
def busyDay : List Slot :=
  [⟨.int 22, .int 30⟩, ⟨.int 4, .int 4⟩, ⟨.int 8, .int 11⟩, ⟨.int (-3), .int 1⟩, ⟨.int 9, .int 10⟩,
    ⟨.int 11, .int 12⟩]

theorem gaps_busyDay :
    (∀ s ∈ busyDay, s.Whole) ∧
    gaps busyDay (.int 24) (.int 0) = [⟨.int 1, .int 4⟩, ⟨.int 4, .int 8⟩, ⟨.int 12, .int 22⟩] ∧
    (∃! g, g ∈ gaps busyDay (.int 24) (.int 0) ∧ g.Holds (.ratio (9 / 2))) ∧
    ∀ g ∈ gaps busyDay (.int 24) (.int 0), ¬ g.Holds (.int 11) := by
  have whole : ∀ s ∈ busyDay, s.Whole := by simp [busyDay, Whole]
  obtain ⟨-, -, instants, -⟩ := gaps_complement busyDay whole 0 24
  refine ⟨whole, by decide +kernel, ?_, ?_⟩
  · exact (instants (.ratio (9 / 2)) (by decide +kernel) (by decide +kernel)).1 (by decide +kernel)
  · exact (instants (.int 11) (by decide) (by decide)).2 (by decide)

end Slot

end Chronoplan
