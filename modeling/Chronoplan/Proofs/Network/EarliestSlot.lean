import Chronoplan.Proofs.Network.Gaps

/-!
# The earliest free slot

A duration fits into a gap exactly when some stretch of its length lies there, so the first gap
with room begins at the least integer from which the duration is clear of all intervals. Without a
horizon the last gap has no end, and its length is a difference with an infinite number: it is
taken only where no earlier gap has room, and it fails where the gap begins at an integer that is
too large.
-/

set_option autoImplicit false

namespace Chronoplan

namespace Slot

/-! ### Gaps with room for a duration -/

/-- Whether a slot is at least as long as a duration. -/
def roomy (d : ℤ) (g : Slot) : Bool := (Number.int (g.first + d)).le g.finish

theorem roomy_inside (d a : ℤ) (e : WithTop ℤ) :
    roomy d ⟨.int a, .ofDistance e⟩ = decide (((a + d : ℤ) : WithTop ℤ) ≤ e) :=
  Number.le_ofDistance (a + d : ℤ) e

theorem covers_of_roomy {d a : ℤ} {e : WithTop ℤ}
    (room : roomy d ⟨.int a, .ofDistance e⟩ = true) :
    Covers a (a + d) ⟨.int a, .ofDistance e⟩ := by
  rw [roomy_inside, decide_eq_true_eq] at room
  exact (covers_iff a (a + d) a e).mpr ⟨le_rfl, room⟩

theorem roomy_of_covers {d s a : ℤ} {e : WithTop ℤ}
    (covers : Covers s (s + d) ⟨.int a, .ofDistance e⟩) :
    a ≤ s ∧ roomy d ⟨.int a, .ofDistance e⟩ = true := by
  obtain ⟨low, high⟩ := (covers_iff s (s + d) a e).mp covers
  rw [roomy_inside, decide_eq_true_eq]
  exact ⟨low, (WithTop.coe_le_coe.mpr (by omega)).trans high⟩

/-- A duration is compared with the length of a slot, which an end that is infinite may spoil. -/
theorem fits_inside (d a : ℤ) (e : WithTop ℤ) :
    fits (.num (.int d)) ⟨.int a, .ofDistance e⟩ =
      if e = ⊤ ∧ ¬ Addable a then .error .tooLarge else .ok (roomy d ⟨.int a, .ofDistance e⟩) := by
  rw [roomy_inside, fits, length, subNumbers]
  cases e using WithTop.recTopCoe with
  | top =>
    have long : (Number.int d).le .posInf = true := by
      simp [Number.le, Number.lt, Number.place?, Place.lt]
    rw [Number.ofDistance_top, posInf_sub?_int]
    by_cases h : Addable a
    · simp [h, orFault, ok_bind, Value.le, long]
    · simp [h, orFault]
  | coe e =>
    have short : d ≤ e - a ↔ a + d ≤ e := by omega
    simp only [Number.ofDistance_coe, Number.sub?_int, orFault, ok_bind, Value.le, Number.le_int,
      WithTop.coe_ne_top, false_and, if_false, WithTop.coe_le_coe, short]

theorem ofDistance_eq_posInf_iff (e : WithTop ℤ) : Number.ofDistance e = .posInf ↔ e = ⊤ :=
  Number.ofDistance_injective.eq_iff (b := ⊤)

/-- The first slot with room is taken unless its length is too large for a number. -/
theorem firstThat_fits (h0 : ℤ) (h1 : WithTop ℤ) (d : ℤ) (slots : List Slot)
    (inside : ∀ g ∈ slots, g.Inside h0 h1) :
    firstThat (fits (.num (.int d))) slots =
      match slots.find? (roomy d) with
      | none => .ok none
      | some g =>
        if g.finish = .posInf ∧ ¬ Addable g.first then .error .tooLarge else .ok (some g) := by
  induction slots with
  | nil => rfl
  | cons g rest ih =>
    obtain ⟨⟨a, e, rfl, -⟩, inside'⟩ := List.forall_mem_cons.mp inside
    rw [firstThat, fits_inside, List.find?_cons]
    by_cases room : roomy d ⟨.int a, .ofDistance e⟩ = true
    · simp only [room, ofDistance_eq_posInf_iff, first_int]
      split_ifs <;> rfl
    · have limited : e ≠ ⊤ := by
        rintro rfl
        exact room (by rw [roomy_inside, decide_eq_true_eq]; exact le_top)
      rw [Bool.not_eq_true] at room
      simp only [room, limited, false_and, if_false, ok_bind]
      exact ih inside'

section

variable (spans : List Slot) (h0 : ℤ) (h1 : WithTop ℤ) (d : ℤ)

/-- The integers of a window from which a duration ends in time and is clear of all spans. -/
def fitting : Set ℤ :=
  {s | h0 ≤ s ∧ ((s + d : ℤ) : WithTop ℤ) ≤ h1 ∧ ∀ k ∈ spans, k.Clear s (s + d)}

variable (whole : ∀ s ∈ spans, s.Whole) (hd : 0 < d)
include whole hd

theorem mem_fitting_iff (s : ℤ) :
    s ∈ fitting spans h0 h1 d ↔
      h0 ≤ s ∧ ∃ g ∈ gaps spans (.ofDistance h1) (.int h0), g.Covers s (s + d) := by
  constructor
  · rintro ⟨low, high, clear⟩
    exact ⟨low, (gaps_covers spans whole h0 h1 s (s + d) low (by omega) high).mpr clear⟩
  · rintro ⟨low, g, hg, covers⟩
    have high : ((s + d : ℤ) : WithTop ℤ) ≤ h1 := by
      obtain ⟨a, e, rfl, -, -, upto⟩ := gaps_inside spans whole h0 h1 g hg
      exact ((covers_iff s (s + d) a e).mp covers).2.trans upto
    exact ⟨low, high,
      (gaps_covers spans whole h0 h1 s (s + d) low (by omega) high).mp ⟨g, hg, covers⟩⟩

/-- A duration fits nowhere exactly when no gap has room for it. -/
theorem find?_roomy_eq_none_iff :
    (gaps spans (.ofDistance h1) (.int h0)).find? (roomy d) = none ↔
      ∀ s, s ∉ fitting spans h0 h1 d := by
  have inside := gaps_inside spans whole h0 h1
  rw [List.find?_eq_none]
  constructor
  · intro none s hs
    obtain ⟨-, g, hg, covers⟩ := (mem_fitting_iff spans h0 h1 d whole hd s).mp hs
    obtain ⟨a, e, rfl, -⟩ := inside g hg
    exact none _ hg (roomy_of_covers covers).2
  · intro none g hg room
    obtain ⟨a, e, rfl, low, -⟩ := inside g hg
    exact none a ((mem_fitting_iff spans h0 h1 d whole hd a).mpr
      ⟨low, _, hg, covers_of_roomy room⟩)

/-- The first gap with room begins at the least integer that fits. -/
theorem isLeast_of_find?_roomy (g : Slot)
    (hg : (gaps spans (.ofDistance h1) (.int h0)).find? (roomy d) = some g) :
    IsLeast (fitting spans h0 h1 d) g.first := by
  have inside := gaps_inside spans whole h0 h1
  have ordered := gaps_ordered spans whole h0 h1
  obtain ⟨room, front, back, split, full⟩ := List.find?_eq_some_iff_append.mp hg
  have member := List.mem_of_find?_eq_some hg
  obtain ⟨a, e, rfl, low, nonempty, -⟩ := inside g member
  constructor
  · exact (mem_fitting_iff spans h0 h1 d whole hd a).mpr ⟨low, _, member, covers_of_roomy room⟩
  · intro s hs
    obtain ⟨-, k, hk, covers⟩ := (mem_fitting_iff spans h0 h1 d whole hd s).mp hs
    obtain ⟨b, f, rfl, -⟩ := inside k hk
    obtain ⟨start, roomy'⟩ := roomy_of_covers covers
    rw [split] at hk ordered
    rcases List.mem_append.mp hk with hk | hk
    · have refused := full _ hk
      rw [roomy'] at refused
      cases refused
    · rcases List.mem_cons.mp hk with same | behind
      · obtain rfl : b = a := Number.int.inj (congrArg Slot.start same)
        exact start
      · have order := (List.pairwise_cons.mp (List.pairwise_append.mp ordered).2.1).1 _ behind
        have between : e ≤ (b : WithTop ℤ) :=
          decide_eq_true_iff.mp ((Number.le_ofDistance e b).symm.trans order)
        exact (WithTop.coe_le_coe.mp (nonempty.le.trans between)).trans start

omit hd

/-- In a window without an end the first gap with room has no end exactly when every span is over
where it begins. -/
theorem unlimited_iff (g : Slot)
    (hg : (gaps spans .posInf (.int h0)).find? (roomy d) = some g) :
    g.finish = .posInf ↔ ∀ s ∈ spans, s.last ≤ g.first := by
  have member := List.mem_of_find?_eq_some hg
  obtain ⟨a, e, rfl, low, nonempty, -⟩ := gaps_inside spans whole h0 ⊤ g member
  rw [ofDistance_eq_posInf_iff]
  constructor
  · rintro rfl s hs
    have clear := (gaps_covers spans whole h0 ⊤ a (max a s.first + 1) low (by omega) le_top).mp
      ⟨_, member, (covers_iff _ _ a ⊤).mpr ⟨le_rfl, le_top⟩⟩ s hs
    have apart := ((whole s hs).clear_iff _ _).mp clear
    rw [first_int]
    omega
  · intro ended
    -- A gap with an end would leave room behind it, yet no other gap begins so early.
    by_contra limited
    obtain ⟨b, rfl⟩ := WithTop.ne_top_iff_exists.mp limited
    rw [WithTop.coe_lt_coe] at nonempty
    obtain ⟨k, hk, covers⟩ := (gaps_covers spans whole h0 ⊤ a (b + 1) low (by omega) le_top).mpr
      fun s hs => ((whole s hs).clear_iff _ _).mpr (.inr (ended s hs))
    obtain ⟨c, f, rfl, -⟩ := gaps_inside spans whole h0 ⊤ k hk
    obtain ⟨start, upto⟩ := (covers_iff a (b + 1) c f).mp covers
    have within : ((b : ℤ) : WithTop ℤ) ≤ f := (WithTop.coe_le_coe.mpr (by omega)).trans upto
    have same := gaps_covers_unique spans whole h0 ⊤ a b nonempty _ _ member hk
      ((covers_iff a b a b).mpr ⟨le_rfl, le_rfl⟩) ((covers_iff a b c f).mpr ⟨start, within⟩)
    obtain rfl : (b : WithTop ℤ) = f := Number.ofDistance_injective (congrArg Slot.finish same)
    rw [WithTop.coe_le_coe] at upto
    omega

/-- Without an end of the window a duration fits somewhere. -/
theorem fitting_nonempty : ∃ s, s ∈ fitting spans h0 ⊤ d := by
  obtain ⟨m, hm⟩ := (spans.map last).toFinset.exists_le
  refine ⟨max h0 m, le_max_left h0 m, le_top, fun k hk => ((whole k hk).clear_iff _ _).mpr ?_⟩
  right
  have upto : k.last ≤ m := hm _ (by simpa using ⟨k, hk, rfl⟩)
  exact upto.trans (le_max_right h0 m)

end

end Slot

/-! ### Slots of a network -/

/-- The span from the start of an interval to its end. -/
def Interval.span (i : Interval) : Slot := ⟨i.start, i.finish⟩

/-- The end of a window, which need not have one. -/
def windowEnd (horizon : Option ℤ) : WithTop ℤ := horizon.elim ⊤ fun h => (h : WithTop ℤ)

theorem windowEnd_number (horizon : Option ℤ) :
    (horizon.map Number.int).getD .posInf = .ofDistance (windowEnd horizon) := by
  cases horizon <;> rfl

theorem le_windowEnd_iff (horizon : Option ℤ) (k : ℤ) :
    (k : WithTop ℤ) ≤ windowEnd horizon ↔ ∀ h ∈ horizon, k ≤ h := by
  cases horizon <;> simp [windowEnd]

namespace Network

/-- The gaps between intervals from an integer on, up to a horizon if there is one. -/
def gapsOf (is : List Interval) (earliest : ℤ) (horizon : Option ℤ) : List Slot :=
  Slot.gaps (is.map Interval.span) (.ofDistance (windowEnd horizon)) (.int earliest)

/-- From an integer on a duration overlaps no interval and ends by the horizon. -/
def Free (n : Network) (d : ℤ) (horizon : Option ℤ) (s : ℤ) : Prop :=
  n.overlapping (.int s) (.int (s + d)) = .ok [] ∧ ∀ h ∈ horizon, s + d ≤ h

section

variable (n : Network) (is : List Interval) (his : n.intervals = .ok is)
include his

theorem spans_eq : n.spans = .ok (is.map Interval.span) := by
  rw [spans, his, ok_bind]
  rfl

theorem overlapping_eq_nil (a b : Number) :
    n.overlapping a b = .ok [] ↔ ∀ i ∈ is, overlaps i.start i.finish a b = false := by
  rw [overlapping, his, ok_bind]
  constructor
  · intro h i hi
    exact Bool.eq_false_iff.mpr (List.filter_eq_nil_iff.mp (Except.ok.inj h) i hi)
  · intro h
    refine congrArg Except.ok (List.filter_eq_nil_iff.mpr fun i hi => ?_)
    rw [h i hi]
    exact Bool.false_ne_true

theorem overlapping_eq_nil_iff_clear (a b : ℤ) :
    n.overlapping (.int a) (.int b) = .ok [] ↔ ∀ s ∈ is.map Interval.span, s.Clear a b := by
  rw [n.overlapping_eq_nil is his, List.forall_mem_map]
  exact Iff.rfl

theorem free_eq_fitting (d earliest : ℤ) (horizon : Option ℤ) :
    {s | earliest ≤ s ∧ n.Free d horizon s} =
      Slot.fitting (is.map Interval.span) earliest (windowEnd horizon) d := by
  ext s
  have clear := n.overlapping_eq_nil_iff_clear is his s (s + d)
  show _ ∧ _ ∧ _ ↔ _ ∧ _ ∧ _
  rw [clear, le_windowEnd_iff]
  tauto

variable (whole : ∀ i ∈ is, i.span.Whole) (d earliest : ℤ) (horizon : Option ℤ)
include whole

/-- The next slot is the first gap with room, unless its length is too large for a number. -/
theorem nextSlot_eq_find? :
    n.nextSlot (.num (.int d)) (.int earliest) (horizon.map .int) =
      match (gapsOf is earliest horizon).find? (Slot.roomy d) with
      | none => .ok none
      | some g =>
        if g.finish = .posInf ∧ ¬ Chronoplan.Addable g.first then .error .tooLarge
        else .ok (some g) := by
  have spans_whole := List.forall_mem_map.mpr whole
  have inside := Slot.gaps_inside _ spans_whole earliest (windowEnd horizon)
  have past : (Number.ofDistance (windowEnd horizon)).le (.int earliest) =
      decide (windowEnd horizon ≤ earliest) := Number.le_ofDistance _ earliest
  rw [nextSlot, windowEnd_number, n.spans_eq is his, ok_bind]
  simp only [past, decide_eq_true_eq]
  split_ifs with empty
  · rw [gapsOf, Slot.gaps_of_le _ spans_whole earliest _ empty]
    rfl
  · exact Slot.firstThat_fits earliest (windowEnd horizon) d _ inside

theorem freeSlots_eq_filter (h : ℤ) :
    n.freeSlots (.num (.int d)) (.int earliest) (.int h) =
      .ok ((gapsOf is earliest (some h)).filter (Slot.roomy d)) := by
  have spans_whole := List.forall_mem_map.mpr whole
  rw [freeSlots, n.spans_eq is his, ok_bind]
  simp only [Number.le_int, decide_eq_true_eq]
  split_ifs with empty
  · rw [gapsOf, windowEnd, Option.elim_some,
      Slot.gaps_of_le _ spans_whole earliest _ (WithTop.coe_le_coe.mpr empty)]
    rfl
  · apply filterM_eq_filter
    intro g hg
    obtain ⟨a, b, rfl, -⟩ := Slot.gaps_finite _ spans_whole earliest h g hg
    rw [← Number.ofDistance_coe b, Slot.fits_inside, if_neg (by simp)]

/-- With a horizon the next slot is the first free slot. -/
theorem nextSlot_horizon (h : ℤ) :
    n.nextSlot (.num (.int d)) (.int earliest) (some (.int h)) =
      .ok ((gapsOf is earliest (some h)).filter (Slot.roomy d)).head? := by
  have search := n.nextSlot_eq_find? is his whole d earliest (some h)
  rw [Option.map_some] at search
  rw [List.head?_filter, search]
  cases found : (gapsOf is earliest (some h)).find? (Slot.roomy d) with
  | none => rfl
  | some g =>
    obtain ⟨a, b, rfl, -⟩ := Slot.gaps_finite _ (List.forall_mem_map.mpr whole) earliest h g
      (List.mem_of_find?_eq_some found)
    simp

variable (hd : 0 < d)
include hd

theorem nextSlot_eq_none_iff :
    n.nextSlot (.num (.int d)) (.int earliest) (horizon.map .int) = .ok none ↔
      ¬ ∃ s, earliest ≤ s ∧ n.Free d horizon s := by
  have fitting := Set.ext_iff.mp (n.free_eq_fitting is his d earliest horizon)
  have nowhere : (gapsOf is earliest horizon).find? (Slot.roomy d) = none ↔
      ∀ s, ¬ (earliest ≤ s ∧ n.Free d horizon s) :=
    (Slot.find?_roomy_eq_none_iff _ earliest (windowEnd horizon) d
      (List.forall_mem_map.mpr whole) hd).trans (forall_congr' fun s => not_congr (fitting s).symm)
  rw [n.nextSlot_eq_find? is his whole, not_exists, ← nowhere]
  cases (gapsOf is earliest horizon).find? (Slot.roomy d) with
  | none => simp
  | some g =>
    simp only
    split_ifs <;> simp

/-- A gap that is found begins at the least integer that is free. -/
theorem isLeast_of_found (g : Slot)
    (found : (gapsOf is earliest horizon).find? (Slot.roomy d) = some g) :
    g.start = .int g.first ∧ IsLeast {s | earliest ≤ s ∧ n.Free d horizon s} g.first ∧
      n.overlapping g.start g.finish = .ok [] := by
  have spans_whole := List.forall_mem_map.mpr whole
  have member := List.mem_of_find?_eq_some found
  have least := Slot.isLeast_of_find?_roomy _ earliest (windowEnd horizon) d spans_whole hd g found
  have start : g.start = .int g.first := by
    obtain ⟨a, e, rfl, -⟩ := Slot.gaps_inside _ spans_whole earliest (windowEnd horizon) g member
    rfl
  rw [n.free_eq_fitting is his, n.overlapping_eq_nil is his]
  exact ⟨start, least, List.forall_mem_map.mp (Slot.gaps_clear _ spans_whole earliest _ g member)⟩

theorem nextSlot_found (slot : Slot)
    (h : n.nextSlot (.num (.int d)) (.int earliest) (horizon.map .int) = .ok (some slot)) :
    ∃ s, slot.start = .int s ∧ IsLeast {s | earliest ≤ s ∧ n.Free d horizon s} s ∧
      n.overlapping slot.start slot.finish = .ok [] := by
  rw [n.nextSlot_eq_find? is his whole] at h
  cases found : (gapsOf is earliest horizon).find? (Slot.roomy d) with
  | none =>
    rw [found] at h
    cases h
  | some g =>
    rw [found] at h
    simp only at h
    split_ifs at h
    cases h
    exact ⟨slot.first, n.isLeast_of_found is his whole d earliest horizon hd slot found⟩

/-- Without a horizon there is always a least free integer. The slot there is returned unless all
intervals are over and the integer is too large. -/
theorem exists_nextSlot_unlimited : ∃ s slot,
    IsLeast {s | earliest ≤ s ∧ n.Free d none s} s ∧ slot.start = .int s ∧
    n.nextSlot (.num (.int d)) (.int earliest) none =
      if Chronoplan.Addable s ∨ ∃ i ∈ is, (Number.int s).lt i.finish = true then .ok (some slot)
      else .error .tooLarge := by
  have spans_whole := List.forall_mem_map.mpr whole
  have search := n.nextSlot_eq_find? is his whole d earliest none
  cases found : (gapsOf is earliest none).find? (Slot.roomy d) with
  | none =>
    obtain ⟨s, hs⟩ := Slot.fitting_nonempty (is.map Interval.span) earliest d spans_whole
    exact absurd hs ((Slot.find?_roomy_eq_none_iff _ earliest ⊤ d spans_whole hd).mp found s)
  | some g =>
    obtain ⟨start, least, -⟩ := n.isLeast_of_found is his whole d earliest none hd g found
    refine ⟨g.first, g, least, start, ?_⟩
    have ended : g.finish = .posInf ↔ ¬ ∃ i ∈ is, (Number.int g.first).lt i.finish = true := by
      have unlimited := Slot.unlimited_iff _ earliest d spans_whole g found
      rw [unlimited, List.forall_mem_map]
      push Not
      refine forall₂_congr fun i hi => ?_
      have finish : i.finish = .int i.span.last := (whole i hi).finish_eq
      simp [finish]
    rw [found] at search
    simp only [ended] at search
    refine search.trans ?_
    by_cases h : ∃ i ∈ is, (Number.int g.first).lt i.finish = true <;>
      by_cases small : Chronoplan.Addable g.first <;> simp [h, small]

end

/-- The next slot of a duration begins at the least integer from which the duration is clear of all
intervals and ends by the horizon, and there is none exactly when there is no such integer. With a
horizon it is the first of the free slots; without one it is always found, or its length is a
number too large to be told. -/
theorem nextSlot_least (n : Network) (is : List Interval) (his : n.intervals = .ok is)
    (whole : ∀ i ∈ is, i.span.Whole) (d : ℤ) (hd : 0 < d) (earliest : ℤ) (horizon : Option ℤ) :
    (∀ slot, n.nextSlot (.num (.int d)) (.int earliest) (horizon.map .int) = .ok (some slot) →
      ∃ s, slot.start = .int s ∧ IsLeast {s | earliest ≤ s ∧ n.Free d horizon s} s ∧
        n.overlapping slot.start slot.finish = .ok []) ∧
    (n.nextSlot (.num (.int d)) (.int earliest) (horizon.map .int) = .ok none ↔
      ¬ ∃ s, earliest ≤ s ∧ n.Free d horizon s) ∧
    (∀ h, horizon = some h → ∃ slots,
      n.freeSlots (.num (.int d)) (.int earliest) (.int h) = .ok slots ∧
        n.nextSlot (.num (.int d)) (.int earliest) (some (.int h)) = .ok slots.head?) ∧
    (horizon = none → ∃ s slot,
      IsLeast {s | earliest ≤ s ∧ n.Free d none s} s ∧ slot.start = .int s ∧
      n.nextSlot (.num (.int d)) (.int earliest) none =
        if Chronoplan.Addable s ∨ ∃ i ∈ is, (Number.int s).lt i.finish = true then .ok (some slot)
        else .error .tooLarge) := by
  refine ⟨n.nextSlot_found is his whole d earliest horizon hd,
    n.nextSlot_eq_none_iff is his whole d earliest horizon hd, fun h _ => ?_, fun _ => ?_⟩
  · exact ⟨_, n.freeSlots_eq_filter is his whole d earliest h,
      n.nextSlot_horizon is his whole d earliest h⟩
  · exact n.exists_nextSlot_unlimited is his whole d earliest hd

end Network

/-! ### Ships at a quay

Two of the stays overlap, and the pilot comes aboard in no time at all. -/

namespace Quay

def stay (id : String) (start finish : ℤ) : IntervalSpec :=
  { id, duration := .null, start := .int start, finish := .int finish, metadata := .null }

def network : Network :=
  match [stay "pilot" 7 7, stay "tug" 4 6, stay "barge" 2 5].foldlM Network.addInterval
    .standard with
  | .ok n => n
  | .error _ => .standard

theorem next_stay :
    (∃ is, network.intervals = .ok is ∧ ∀ i ∈ is, i.span.Whole) ∧
    IsLeast {s | 0 ≤ s ∧ network.Free 3 (some 20) s} 7 ∧
    network.nextSlot (.num (.int 3)) (.int 0) (some (.int 20)) = .ok (some ⟨.int 7, .int 20⟩) ∧
    ∃ slots, network.freeSlots (.num (.int 3)) (.int 0) (.int 20) = .ok slots ∧
      slots.head? = some ⟨.int 7, .int 20⟩ := by
  have read : ((network.intervals.toOption.map fun is => is.map Interval.span)) =
      some [⟨.int 2, .int 5⟩, ⟨.int 4, .int 6⟩, ⟨.int 7, .int 7⟩] := by decide +kernel
  obtain ⟨is, his, spans⟩ := Option.map_eq_some_iff.mp read
  have his := toOption_eq_some_iff.mp his
  have whole : ∀ i ∈ is, i.span.Whole := by
    rw [← List.forall_mem_map (P := Slot.Whole), spans]
    simp [Slot.Whole]
  have next : network.nextSlot (.num (.int 3)) (.int 0) (some (.int 20)) =
      .ok (some ⟨.int 7, .int 20⟩) := toOption_eq_some_iff.mp (by decide +kernel)
  obtain ⟨found, -, listed, -⟩ :=
    network.nextSlot_least is his whole 3 (by decide) 0 (some 20)
  obtain ⟨s, start, least, -⟩ := found _ next
  obtain rfl : 7 = s := Number.int.inj start
  obtain ⟨slots, hslots, first⟩ := listed 20 rfl
  exact ⟨⟨is, his, whole⟩, least, next, slots, hslots,
    (Option.some.inj (congrArg Except.toOption (first.symm.trans next)))⟩

end Quay

/-! ### A firing of two and a half hours

A gap may then begin at a number that is no integer, and beyond the largest binary64 the last gap
has no length. -/

namespace Kiln

def network : Network :=
  match Network.standard.addInterval
    { id := "fire", duration := .float (.finite (5 / 2)), start := .int 0, finish := .null,
      metadata := .null } with
  | .ok n => n
  | .error _ => .standard

theorem network_spans :
    ∃ is, network.intervals = .ok is ∧
      is.map Interval.span = [⟨.int 0, .float (.finite (5 / 2))⟩] := by
  have read : (network.intervals.toOption.map fun is => is.map Interval.span) =
      some [⟨.int 0, .float (.finite (5 / 2))⟩] := by decide +kernel
  obtain ⟨is, his, spans⟩ := Option.map_eq_some_iff.mp read
  exact ⟨is, toOption_eq_some_iff.mp his, spans⟩

theorem free_iff (s : ℤ) : network.Free 1 none s ↔
    overlaps (.int 0) (.float (.finite (5 / 2))) (.int s) (.int (s + 1)) = false := by
  obtain ⟨is, his, spans⟩ := network_spans
  rw [Network.Free, network.overlapping_eq_nil_iff_clear is his, spans]
  simp [Slot.Clear]

theorem ordered : ∃ is, network.intervals = .ok is ∧ ∀ i ∈ is, i.start.le i.finish = true := by
  obtain ⟨is, his, spans⟩ := network_spans
  have forward : ∀ s ∈ is.map Interval.span, s.start.le s.finish = true := by
    rw [spans]
    decide +kernel
  exact ⟨is, his, List.forall_mem_map.mp forward⟩

theorem isLeast_free : IsLeast {s | 0 ≤ s ∧ network.Free 1 none s} 3 := by
  constructor
  · exact ⟨by decide, (free_iff 3).mpr (by decide +kernel)⟩
  · rintro s ⟨low, free⟩
    by_contra early
    have cases : s = 0 ∨ s = 1 ∨ s = 2 := by omega
    rcases cases with rfl | rfl | rfl <;> exact absurd ((free_iff _).mp free) (by decide +kernel)

theorem free_late : Network.standard.Free 1 none (Nat.pow 2 1024 : ℕ) :=
  ⟨rfl, fun _ none => nomatch none⟩

theorem between_hours :
    (∃ is, network.intervals = .ok is ∧ ∀ i ∈ is, i.start.le i.finish = true) ∧
    IsLeast {s | 0 ≤ s ∧ network.Free 1 none s} 3 ∧
    network.nextSlot (.num (.int 1)) (.int 0) none =
      .ok (some ⟨.float (.finite (5 / 2)), .posInf⟩) ∧
    Network.standard.intervals = .ok [] ∧
    Network.standard.Free 1 none (Nat.pow 2 1024 : ℕ) ∧
    Network.standard.nextSlot (.num (.int 1)) (.int (Nat.pow 2 1024 : ℕ)) none =
      .error .tooLarge :=
  ⟨ordered, isLeast_free, toOption_eq_some_iff.mp (by decide +kernel), rfl, free_late,
    stopsTooLarge_iff.mp (by decide +kernel)⟩

end Kiln

end Chronoplan
