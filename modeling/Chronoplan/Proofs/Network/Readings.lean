import Chronoplan.Network.Slot
import Chronoplan.Proofs.Network.Additions
import Chronoplan.Proofs.Sorting

/-!
# Intervals as they are read

In a well-formed network every interval that can be read begins and ends at an integer, and all can
be read unless a stored lower number is too large. Overlaps are then comparisons of integers, and a
free slot after an integer begins at one.
-/

set_option autoImplicit false

namespace Chronoplan

/-! ### Names of points -/

@[simp] theorem startPoint_inj (a b : String) : startPoint a = startPoint b ↔ a = b :=
  String.append_left_inj startSuffix

@[simp] theorem endPoint_inj (a b : String) : endPoint a = endPoint b ↔ a = b :=
  String.append_left_inj endSuffix

theorem getLast_startPoint (id : String) : (startPoint id).toList.getLast? = some 't' := by
  simp [startPoint, startSuffix]

theorem getLast_endPoint (id : String) : (endPoint id).toList.getLast? = some 'd' := by
  simp [endPoint, endSuffix]

@[simp] theorem startPoint_ne_endPoint (a b : String) : startPoint a ≠ endPoint b := by
  intro h
  have last := getLast_startPoint a
  rw [h, getLast_endPoint b] at last
  cases last

@[simp] theorem endPoint_ne_startPoint (a b : String) : endPoint a ≠ startPoint b :=
  (startPoint_ne_endPoint b a).symm

@[simp] theorem startPoint_ne_origin (id : String) : startPoint id ≠ originPoint := by
  intro h
  have last := getLast_startPoint id
  rw [h] at last
  cases last

@[simp] theorem origin_ne_startPoint (id : String) : originPoint ≠ startPoint id :=
  (startPoint_ne_origin id).symm

@[simp] theorem endPoint_ne_origin (id : String) : endPoint id ≠ originPoint := by
  intro h
  have last := getLast_endPoint id
  rw [h] at last
  cases last

@[simp] theorem origin_ne_endPoint (id : String) : originPoint ≠ endPoint id :=
  (endPoint_ne_origin id).symm

/-! ### Times of an interval -/

theorem finiteLower_eq (bound : Option Bound) (k : ℤ) (x : Number)
    (hb : ∀ b, bound = some b → b.Integral) (h : Network.finiteLower bound (.int k) = .ok x) :
    x = .int ((bound.elim ⊥ Bound.least).unbotD k) := by
  cases bound with
  | none =>
    cases h
    rfl
  | some b =>
    obtain ⟨back, forth, rfl⟩ := hb b rfl
    obtain ⟨y, hy, h⟩ := (bind_eq_ok_iff _ _ _).mp h
    cases back using WithTop.recTopCoe with
    | top =>
      cases hy
      cases h
      rfl
    | coe m =>
      have finite : y.isInfinite = false :=
        nearest_not_isInfinite _ y ((orFault_eq_ok_iff _ _ _).mp hy)
      rw [finite] at h
      cases h
      rfl

theorem finiteLower_returns (bound : Option Bound) (default : Number)
    (h : ∀ b, bound = some b → ∃ x, b.lo.toBinary64 = .ok x) :
    ∃ x, Network.finiteLower bound default = .ok x := by
  cases bound with
  | none => exact ⟨default, rfl⟩
  | some b =>
    obtain ⟨x, hx⟩ := h b rfl
    exact ⟨_, (bind_eq_ok_iff _ _ _).mpr ⟨x, hx, rfl⟩⟩

namespace Network

variable (n : Network)

/-- When an interval begins: its least time from the origin. -/
def beginsAt (id : String) : ℤ := (n.least originPoint (startPoint id)).unbotD 0

/-- When an interval ends: by its own anchor or, without one, after its least duration. -/
def endsAt (id : String) : ℤ :=
  (n.least originPoint (endPoint id)).unbotD
    (n.beginsAt id + (n.least (startPoint id) (endPoint id)).unbotD 0)

section WellFormed

variable (w : n.WellFormed)
include w

theorem anchorOf_eq (p : String) (k : ℤ) (x : Number) (h : n.anchorOf p (.int k) = .ok x) :
    x = .int ((n.least originPoint p).unbotD k) :=
  finiteLower_eq _ k x (n.get?_integral w originPoint p) h

theorem readInterval_times (id : String) (i : Interval) (h : n.readInterval id = .ok i) :
    i.start = .int (n.beginsAt id) ∧ i.finish = .int (n.endsAt id) := by
  obtain ⟨start, hstart, h⟩ := (bind_eq_ok_iff _ _ _).mp h
  obtain ⟨shortest, hshortest, h⟩ := (bind_eq_ok_iff _ _ _).mp h
  obtain ⟨earliest, hearliest, h⟩ := (bind_eq_ok_iff _ _ _).mp h
  obtain ⟨finish, hfinish, h⟩ := (bind_eq_ok_iff _ _ _).mp h
  cases h
  have hstart := n.anchorOf_eq w _ 0 start hstart
  have hshortest := finiteLower_eq _ 0 shortest (n.get?_integral w _ _) hshortest
  subst hstart hshortest
  cases hearliest
  exact ⟨rfl, n.anchorOf_eq w _ _ finish hfinish⟩

end WellFormed

theorem readInterval_id (id : String) (i : Interval) (h : n.readInterval id = .ok i) :
    i.id = id := by
  obtain ⟨start, -, h⟩ := (bind_eq_ok_iff _ _ _).mp h
  obtain ⟨shortest, -, h⟩ := (bind_eq_ok_iff _ _ _).mp h
  obtain ⟨sum, -, h⟩ := (bind_eq_ok_iff _ _ _).mp h
  obtain ⟨finish, -, h⟩ := (bind_eq_ok_iff _ _ _).mp h
  cases h
  rfl

section Returning

variable (w : n.WellFormed)
  (lower : ∀ u v b, n.get? u v = some b → ∃ x, b.lo.toBinary64 = .ok x)
include w lower

theorem anchorOf_returns (p : String) (k : ℤ) :
    n.anchorOf p (.int k) = .ok (.int ((n.least originPoint p).unbotD k)) := by
  obtain ⟨x, hx⟩ := finiteLower_returns (n.get? originPoint p) (.int k) (lower originPoint p)
  rw [← n.anchorOf_eq w p k x hx]
  exact hx

theorem readInterval_returns (id : String) : ∃ i, n.readInterval id = .ok i := by
  obtain ⟨x, hx⟩ := finiteLower_returns (n.get? (startPoint id) (endPoint id)) (.int 0)
    (lower (startPoint id) (endPoint id))
  obtain rfl := finiteLower_eq _ 0 x (n.get?_integral w _ _) hx
  unfold readInterval
  rw [n.anchorOf_returns w lower _ 0, ok_bind, Network.shortest, hx, ok_bind, addNumbers,
    Number.add?_int]
  rw [orFault, ok_bind, n.anchorOf_returns w lower]
  exact ⟨_, rfl⟩

/-- The intervals can be read where no stored lower number is too large. -/
theorem exists_intervals : ∃ is, n.intervals = .ok is := by
  obtain ⟨keyed, hkeyed⟩ := (exists_mapM_iff
    (fun id => n.anchorOf (startPoint id) (.int 0) >>= fun start => .ok (start, id))
    n.intervalIds).mpr fun id _ =>
      ⟨_, (bind_eq_ok_iff _ _ _).mpr ⟨_, n.anchorOf_returns w lower _ 0, rfl⟩⟩
  obtain ⟨is, his⟩ := (exists_mapM_iff (fun e : Number × String => n.readInterval e.2)
    (stableSort startsBefore keyed)).mpr fun e _ => n.readInterval_returns w lower e.2
  exact ⟨is, (bind_eq_ok_iff _ _ _).mpr ⟨keyed, hkeyed, his⟩⟩

end Returning

/-- The intervals are those of the names with both points, whatever their order. -/
theorem intervals_read (is : List Interval) (h : n.intervals = .ok is) :
    (∀ id ∈ n.intervalIds, ∃ i ∈ is, n.readInterval id = .ok i) ∧
      ∀ i ∈ is, ∃ id ∈ n.intervalIds, n.readInterval id = .ok i := by
  obtain ⟨keyed, hkeyed, h⟩ := (bind_eq_ok_iff _ _ _).mp h
  have sorted := stableSort_perm startsBefore keyed
  have keys : ∀ e ∈ keyed, e.2 ∈ n.intervalIds := by
    intro e he
    obtain ⟨id, hid, hread⟩ := mem_of_mapM _ _ _ hkeyed e he
    obtain ⟨start, -, hread⟩ := (bind_eq_ok_iff _ _ _).mp hread
    cases hread
    exact hid
  constructor
  · intro id hid
    obtain ⟨e, he, hread⟩ := exists_of_mapM _ _ _ hkeyed id hid
    obtain ⟨start, -, hread⟩ := (bind_eq_ok_iff _ _ _).mp hread
    cases hread
    exact exists_of_mapM _ _ _ h _ (sorted.mem_iff.mpr he)
  · intro i hi
    obtain ⟨e, he, hread⟩ := mem_of_mapM _ _ _ h i hi
    exact ⟨e.2, keys e (sorted.mem_iff.mp he), hread⟩

/-- Further points leave every interval an interval. -/
theorem intervalIds_mono (m : Network) (h : ∀ p ∈ n.points, p ∈ m.points) :
    ∀ id ∈ n.intervalIds, id ∈ m.intervalIds := by
  intro id hid
  obtain ⟨hname, hend⟩ := List.mem_filter.mp hid
  obtain ⟨p, hp, hid⟩ := List.mem_filterMap.mp hname
  refine List.mem_filter.mpr ⟨List.mem_filterMap.mpr ⟨p, h p hp, hid⟩, ?_⟩
  simp only [Bool.and_eq_true, List.contains_iff_mem] at hend ⊢
  exact ⟨hend.1, h _ hend.2⟩

/-- Whether an interval keeps clear of a span. -/
def Clear (id : String) (s f : ℤ) : Prop := f ≤ n.beginsAt id ∨ n.endsAt id ≤ s

theorem overlaps_int (a b c d : ℤ) :
    overlaps (.int a) (.int b) (.int c) (.int d) = false ↔ d ≤ a ∨ b ≤ c := by
  simp only [overlaps, Number.lt_int, Bool.and_eq_false_iff, decide_eq_false_iff_not, not_lt]

/-- No interval overlaps a span exactly when all can be read and keep clear of it. -/
theorem overlapping_eq_nil_iff (w : n.WellFormed) (s f : ℤ) :
    n.overlapping (.int s) (.int f) = .ok [] ↔
      (∃ is, n.intervals = .ok is) ∧ ∀ id ∈ n.intervalIds, n.Clear id s f := by
  have span : ∀ id i, n.readInterval id = .ok i →
      (overlaps i.start i.finish (.int s) (.int f) = false ↔ n.Clear id s f) := by
    intro id i hread
    obtain ⟨hstart, hfinish⟩ := n.readInterval_times w id i hread
    rw [hstart, hfinish, overlaps_int, Clear]
  rw [overlapping, bind_eq_ok_iff]
  constructor
  · rintro ⟨is, his, h⟩
    refine ⟨⟨is, his⟩, fun id hid => ?_⟩
    obtain ⟨i, hi, hread⟩ := (n.intervals_read is his).1 id hid
    have none := List.filter_eq_nil_iff.mp (Except.ok.inj h) i hi
    exact (span id i hread).mp (Bool.eq_false_iff.mpr none)
  · rintro ⟨⟨is, his⟩, clear⟩
    refine ⟨is, his, congrArg Except.ok (List.filter_eq_nil_iff.mpr fun i hi => ?_)⟩
    obtain ⟨id, hid, hread⟩ := (n.intervals_read is his).2 i hi
    rw [(span id i hread).mpr (clear id hid)]
    exact Bool.false_ne_true

end Network

/-! ### Free slots -/

theorem max_int (a b : ℤ) : (Number.int a).max (.int b) = .int (max a b) := by
  unfold Number.max
  rw [Number.lt_int]
  by_cases h : a < b
  · simp [h, max_eq_right h.le]
  · simp [h, max_eq_left (not_lt.mp h)]

namespace Slot

/-- The span ends at an integer. -/
def EndsWhole (s : Slot) : Prop := ∃ k : ℤ, s.finish = .int k

theorem absorb_endsWhole (blocks : List Slot) (s : Slot) (hs : s.EndsWhole)
    (hblocks : ∀ b ∈ blocks, b.EndsWhole) : ∀ b ∈ absorb blocks s, b.EndsWhole := by
  unfold absorb
  split
  · simpa using hs
  · next last rest =>
    obtain ⟨hlast, hrest⟩ := List.forall_mem_cons.mp hblocks
    split
    · obtain ⟨k, hk⟩ := hs
      obtain ⟨m, hm⟩ := hlast
      refine List.forall_mem_cons.mpr ⟨⟨max m k, ?_⟩, hrest⟩
      rw [hm, hk, max_int]
    · exact List.forall_mem_cons.mpr ⟨hs, hblocks⟩

theorem merge_endsWhole (spans : List Slot) (h : ∀ s ∈ spans, s.EndsWhole) :
    ∀ b ∈ merge spans, b.EndsWhole := by
  have folded : ∀ (sorted blocks : List Slot), (∀ s ∈ sorted, s.EndsWhole) →
      (∀ b ∈ blocks, b.EndsWhole) → ∀ b ∈ sorted.foldl absorb blocks, b.EndsWhole := by
    intro sorted
    induction sorted with
    | nil => exact fun _ _ hblocks => hblocks
    | cons s sorted ih =>
      intro blocks hsorted hblocks
      obtain ⟨hs, hsorted⟩ := List.forall_mem_cons.mp hsorted
      exact ih _ hsorted (absorb_endsWhole blocks s hs hblocks)
  intro b hb
  refine folded (stableSort before spans) [] (fun s hs => ?_) (by simp) b (List.mem_reverse.mp hb)
  exact h s ((stableSort_perm before spans).mem_iff.mp hs)

/-- The gaps after an integer begin at integers that are no earlier. -/
theorem gapsFrom_start (horizon : Number) (blocks : List Slot) (cursor : ℤ)
    (h : ∀ b ∈ blocks, b.EndsWhole) :
    ∀ g ∈ gapsFrom horizon (.int cursor) blocks, ∃ k : ℤ, g.start = .int k ∧ cursor ≤ k := by
  induction blocks generalizing cursor with
  | nil =>
    intro g hg
    unfold gapsFrom at hg
    split at hg
    · cases List.mem_singleton.mp hg
      exact ⟨cursor, rfl, le_rfl⟩
    · cases hg
  | cons b rest ih =>
    obtain ⟨⟨finish, hfinish⟩, hrest⟩ := List.forall_mem_cons.mp h
    intro g hg
    unfold gapsFrom at hg
    split at hg
    · exact ih cursor hrest g hg
    · split at hg
      · split at hg
        · cases List.mem_singleton.mp hg
          exact ⟨cursor, rfl, le_rfl⟩
        · cases hg
      · have later : g ∈ gapsFrom horizon (.int (max cursor finish)) rest →
            ∃ k : ℤ, g.start = .int k ∧ cursor ≤ k := by
          intro hg
          obtain ⟨k, hk, hle⟩ := ih _ hrest g hg
          exact ⟨k, hk, (le_max_left cursor finish).trans hle⟩
        rw [hfinish, max_int] at hg
        simp only at hg
        split at hg
        · rcases List.mem_cons.mp hg with rfl | hg
          · exact ⟨cursor, rfl, le_rfl⟩
          · exact later hg
        · exact later hg

end Slot

theorem mem_of_firstThat {α : Type} (test : α → Except Fault Bool) (l : List α) (a : α)
    (h : firstThat test l = .ok (some a)) : a ∈ l := by
  induction l with
  | nil => cases h
  | cons b rest ih =>
    obtain ⟨holds, -, h⟩ := (bind_eq_ok_iff _ _ _).mp h
    cases holds with
    | true =>
      cases h
      exact List.mem_cons_self
    | false => exact List.mem_cons_of_mem b (ih h)

theorem Network.nextSlot_start (n : Network) (w : n.WellFormed) (duration : Value) (earliest : ℤ)
    (slot : Slot) (h : n.nextSlot duration (.int earliest) none = .ok (some slot)) :
    ∃ k : ℤ, slot.start = .int k ∧ earliest ≤ k := by
  unfold nextSlot at h
  simp only at h
  split at h
  · cases h
  · obtain ⟨spans, hspans, h⟩ := (bind_eq_ok_iff _ _ _).mp h
    obtain ⟨is, his, hspans⟩ := (bind_eq_ok_iff _ _ _).mp hspans
    cases hspans
    refine Slot.gapsFrom_start _ _ earliest (Slot.merge_endsWhole _ fun s hs => ?_) slot
      (mem_of_firstThat _ _ slot h)
    obtain ⟨i, hi, rfl⟩ := List.mem_map.mp hs
    obtain ⟨id, -, hread⟩ := (n.intervals_read is his).2 i hi
    exact ⟨n.endsAt id, (n.readInterval_times w id i hread).2⟩

end Chronoplan
