import Chronoplan.Proofs.Network.Bookings
import Chronoplan.Proofs.Network.Detours
import Chronoplan.Proofs.Network.Narrowing

/-!
# Intervals that are asked for

An accepted request bounds the time between two new points and fixes those of them whose time is
given. What is read back under its name has the given start and end, and where the start is given
whenever the end is, it lasts as long as was asked for. No other interval is read differently.
-/

set_option autoImplicit false

namespace Chronoplan

/-! ### Names that are read -/

theorem withoutSuffix?_eq_some_iff (suffix s t : String) :
    withoutSuffix? suffix s = some t ↔ s = t ++ suffix := by
  unfold withoutSuffix?
  rw [String.endsWith_eq_endsWith_toSlice]
  simp only [String.Slice.endsWith_string_iff, String.copy_toSlice]
  constructor
  · intro h
    split_ifs at h with ends
    obtain ⟨front, whole⟩ := ends
    cases h
    rw [← String.toList_inj, String.toList_append, String.toList_ofList, ← whole]
    simp
  · rintro rfl
    rw [if_pos (by simp)]
    simp

namespace Network

section Names

variable (n : Network)

theorem mem_intervalIds_iff (id : String) :
    id ∈ n.intervalIds ↔ id ≠ "" ∧ startPoint id ∈ n.points ∧ endPoint id ∈ n.points := by
  simp only [intervalIds, List.mem_filter, List.mem_filterMap, withoutSuffix?_eq_some_iff,
    Bool.and_eq_true, bne_iff_ne, List.contains_iff_mem]
  constructor
  · rintro ⟨⟨p, hp, rfl⟩, named, last⟩
    exact ⟨named, hp, last⟩
  · rintro ⟨named, first, last⟩
    exact ⟨⟨_, first, rfl⟩, named, last⟩

theorem intervalIds_nodup (sorted : n.Sorted) : n.intervalIds.Nodup := by
  have once : n.points.Nodup := sorted.imp fun h => ne_of_lt h
  refine (once.filterMap fun p q id hp hq => ?_).filter _
  rw [(withoutSuffix?_eq_some_iff _ _ _).mp hp, (withoutSuffix?_eq_some_iff _ _ _).mp hq]

theorem intervals_ids (is : List Interval) (h : n.intervals = .ok is) :
    (is.map Interval.id).Perm n.intervalIds := by
  obtain ⟨keyed, hkeyed, h⟩ := (bind_eq_ok_iff _ _ _).mp h
  have keys : keyed.map Prod.snd = n.intervalIds := by
    refine (map_eq_of_mapM Prod.snd (fun id => id) _ _ _ (fun id e he => ?_) hkeyed).trans
      (List.map_id' _)
    obtain ⟨start, -, he⟩ := (bind_eq_ok_iff _ _ _).mp he
    cases he
    rfl
  have ids := map_eq_of_mapM Interval.id Prod.snd _ _ _ (fun e i hi => n.readInterval_id e.2 i hi) h
  rw [ids, ← keys]
  exact (stableSort_perm startsBefore keyed).map Prod.snd

theorem intervals_nodup (sorted : n.Sorted) (is : List Interval) (h : n.intervals = .ok is) :
    is.Nodup :=
  .of_map Interval.id ((n.intervals_ids is h).nodup_iff.mpr (n.intervalIds_nodup sorted))

theorem readInterval_anchor (id : String) (i : Interval) (h : n.readInterval id = .ok i) :
    n.anchorOf (startPoint id) (.int 0) = .ok i.start := by
  obtain ⟨start, hstart, h⟩ := (bind_eq_ok_iff _ _ _).mp h
  obtain ⟨shortest, -, h⟩ := (bind_eq_ok_iff _ _ _).mp h
  obtain ⟨sum, -, h⟩ := (bind_eq_ok_iff _ _ _).mp h
  obtain ⟨finish, -, h⟩ := (bind_eq_ok_iff _ _ _).mp h
  cases h
  exact hstart

/-- All intervals are read exactly when each of them is. -/
theorem exists_intervals_iff : (∃ is, n.intervals = .ok is) ↔
    ∀ id ∈ n.intervalIds, ∃ i, n.readInterval id = .ok i := by
  constructor
  · rintro ⟨is, h⟩ id hid
    obtain ⟨i, -, hi⟩ := (n.intervals_read is h).1 id hid
    exact ⟨i, hi⟩
  · intro reads
    obtain ⟨keyed, hkeyed⟩ := (exists_mapM_iff
      (fun id => n.anchorOf (startPoint id) (.int 0) >>= fun start => .ok (start, id))
      n.intervalIds).mpr fun id hid => by
        obtain ⟨i, hi⟩ := reads id hid
        exact ⟨_, (bind_eq_ok_iff _ _ _).mpr ⟨_, n.readInterval_anchor id i hi, rfl⟩⟩
    obtain ⟨is, his⟩ := (exists_mapM_iff (fun e : Number × String => n.readInterval e.2)
      (stableSort startsBefore keyed)).mpr fun e he => by
        obtain ⟨id, hid, he⟩ :=
          mem_of_mapM _ _ _ hkeyed e ((stableSort_perm startsBefore keyed).mem_iff.mp he)
        obtain ⟨start, -, he⟩ := (bind_eq_ok_iff _ _ _).mp he
        cases he
        exact reads id hid
    exact ⟨is, (bind_eq_ok_iff _ _ _).mpr ⟨keyed, hkeyed, his⟩⟩

end Names

/-- An interval is read alike where the same bounds are stored for it. -/
theorem readInterval_congr (n m : Network) (id : String)
    (start : m.get? originPoint (startPoint id) = n.get? originPoint (startPoint id))
    (finish : m.get? originPoint (endPoint id) = n.get? originPoint (endPoint id))
    (length : m.get? (startPoint id) (endPoint id) = n.get? (startPoint id) (endPoint id))
    (data : m.metadata.find? sameText id = n.metadata.find? sameText id) :
    m.readInterval id = n.readInterval id := by
  simp only [readInterval, anchorOf, shortest, start, finish, length, data]

/-- With one further interval, and the others read alike, that one is read beside them. -/
theorem intervals_perm (n m : Network) (sorted : n.Sorted) (sorted' : m.Sorted) (i : Interval)
    (fresh : i.id ∉ n.intervalIds) (read : m.readInterval i.id = .ok i)
    (ids : ∀ id, id ∈ m.intervalIds ↔ id = i.id ∨ id ∈ n.intervalIds)
    (others : ∀ id ∈ n.intervalIds, m.readInterval id = n.readInterval id)
    (is : List Interval) (h : n.intervals = .ok is) :
    ∃ js, m.intervals = .ok js ∧ js.Perm (i :: is) := by
  obtain ⟨reads, whence⟩ := n.intervals_read is h
  obtain ⟨js, hjs⟩ := m.exists_intervals_iff.mpr fun id hid => by
    rcases (ids id).mp hid with rfl | old
    · exact ⟨i, read⟩
    · obtain ⟨j, -, hj⟩ := reads id old
      exact ⟨j, (others id old).trans hj⟩
  obtain ⟨reads', whence'⟩ := m.intervals_read js hjs
  have new : i ∉ is := fun hi => by
    obtain ⟨id, hid, hread⟩ := whence i hi
    rw [n.readInterval_id id i hread] at fresh
    exact fresh hid
  refine ⟨js, hjs, (List.perm_ext_iff_of_nodup (m.intervals_nodup sorted' js hjs)
    (List.nodup_cons.mpr ⟨new, n.intervals_nodup sorted is h⟩)).mpr fun j => ?_⟩
  rw [List.mem_cons]
  constructor
  · intro hj
    obtain ⟨id, hid, hread⟩ := whence' j hj
    rcases (ids id).mp hid with rfl | old
    · exact .inl (Except.ok.inj (hread.symm.trans read))
    · obtain ⟨j', hj', hread'⟩ := reads id old
      rw [others id old, hread'] at hread
      exact .inr (Except.ok.inj hread ▸ hj')
  · rintro (rfl | hj)
    · obtain ⟨j', hj', hread⟩ := reads' j.id ((ids j.id).mpr (.inl rfl))
      rw [read] at hread
      exact Except.ok.inj hread ▸ hj'
    · obtain ⟨id, old, hread⟩ := whence j hj
      obtain ⟨j', hj', hread'⟩ := reads' id ((ids id).mpr (.inr old))
      rw [others id old, hread] at hread'
      exact Except.ok.inj hread' ▸ hj'

end Network

/-! ### What a request writes -/

/-- What an accepted request comes to: the bound on its duration, its start and its end if they are
given, and the data that goes with it. -/
structure Booking where
  length : Bound
  start : Option ℤ
  finish : Option ℤ
  data : Option Metadata

/-- The bound that fixes a point at a time. -/
def Bound.fixed (k : ℤ) : Bound := .exactly (.int k)

namespace Network

/-- The network with the bounds of a request. -/
def entered (n : Network) (id : String) (q : Booking) : Network :=
  ((((n.addPoint (startPoint id)).addPoint (endPoint id)).addBound (startPoint id) (endPoint id)
    q.length).limited (startPoint id) q.start .fixed).limited (endPoint id) q.finish .fixed

/-- The network with the bounds and the data of a request. -/
def booked (n : Network) (id : String) (q : Booking) : Network :=
  q.data.elim (n.entered id q) ((n.entered id q).withMetadata id)

end Network

/-- What a request asks for, and that none of it is too large. -/
structure IntervalSpec.Asks (spec : IntervalSpec) (n : Network) (q : Booking) : Prop where
  start : n.ticksOf spec.start = .ok (q.start.elim .null .int)
  finish : n.ticksOf spec.finish = .ok (q.finish.elim .null .int)
  small : ∀ k, k ∈ q.start ∨ k ∈ q.finish → Addable k
  usable : q.length.Usable
  length : (spec.duration = .null ∧ ∃ s f, q.start = some s ∧ q.finish = some f ∧
      q.length = .fixed (f - s)) ∨
    ∃ d : ℤ, 0 ≤ d ∧ q.length.lo = .int d ∧
      n.durationPair spec.duration = .ok (.int d, .num q.length.hi)

namespace Network

variable {n m : Network}

/-- A point is fixed at a given integer, or not at all. -/
theorem anchor_limited (p : String) (v : Value) (hv : v.Integral) (h : n.anchor p v = .ok m) :
    ∃ given : Option ℤ, v = given.elim .null .int ∧ (∀ k ∈ given, Chronoplan.Addable k) ∧
      m = n.limited p given .fixed := by
  by_cases absent : v = .null
  · subst absent
    cases h
    exact ⟨none, rfl, by simp, rfl⟩
  · obtain ⟨k, rfl⟩ := anchor_int p v hv absent h
    obtain ⟨b, hb, h⟩ := (bind_eq_ok_iff _ _ _).mp h
    cases h
    obtain ⟨usable, rfl⟩ := (ofValues_eq_ok_iff (.fixed k) b (Bound.exactly_integral k)).mp hb
    exact ⟨some k, rfl, by simpa using (show Chronoplan.Addable k from usable.small.1), rfl⟩

/-- The first part of an accepted duration is not negative. -/
theorem durationPair_lower (v lo hi : Value) (h : n.durationPair v = .ok (lo, hi)) :
    lo.lt (.int 0) = .ok false := by
  unfold durationPair at h
  simp only at h
  split at h
  · obtain ⟨ticks, -, h⟩ := (bind_eq_ok_iff _ _ _).mp h
    exact (durationBounds_parts [.int ticks, .int ticks] lo hi h).2
  · exact (durationBounds_parts _ lo hi h).2
  · exact (durationBounds_parts [v, v] lo hi h).2

theorem specDuration_given (spec : IntervalSpec) (given : spec.duration ≠ .null)
    (start finish : Value) : n.specDuration spec start finish = n.durationPair spec.duration := by
  unfold specDuration
  split <;> simp_all

/-- A duration that is not given follows from start and end. -/
theorem specDuration_absent (spec : IntervalSpec) (absent : spec.duration = .null)
    (start finish : Option ℤ) (lo hi : Value)
    (h : n.specDuration spec (start.elim .null .int) (finish.elim .null .int) = .ok (lo, hi)) :
    ∃ s f, start = some s ∧ finish = some f ∧ lo = .int (f - s) ∧ hi = .int (f - s) := by
  unfold specDuration at h
  rw [absent] at h
  cases start with
  | none => cases h
  | some s =>
    cases finish with
    | none => cases h
    | some f =>
      cases h
      exact ⟨s, f, rfl, rfl, rfl, rfl⟩

/-- An accepted request writes what it asks for. -/
theorem addInterval_booked (spec : IntervalSpec) (hs : spec.Integral)
    (h : n.addInterval spec = .ok m) :
    ∃ q, spec.Asks n q ∧ m = n.booked spec.id q := by
  obtain ⟨start, hstart, h⟩ := (bind_eq_ok_iff _ _ _).mp h
  obtain ⟨finish, hfinish, h⟩ := (bind_eq_ok_iff _ _ _).mp h
  obtain ⟨⟨lo, hi⟩, hdur, h⟩ := (bind_eq_ok_iff _ _ _).mp h
  obtain ⟨n₁, h₁, h⟩ := (bind_eq_ok_iff _ _ _).mp h
  obtain ⟨n₂, h₂, h⟩ := (bind_eq_ok_iff _ _ _).mp h
  obtain ⟨n₃, h₃, last⟩ := (bind_eq_ok_iff _ _ _).mp h
  clear h
  obtain ⟨s, rfl, smallS, rfl⟩ :=
    anchor_limited _ start (ticksOf_integral _ _ hs.start hstart) h₂
  obtain ⟨f, rfl, smallF, rfl⟩ :=
    anchor_limited _ finish (ticksOf_integral _ _ hs.finish hfinish) h₃
  obtain ⟨bound, hb, h₁⟩ := (bind_eq_ok_iff _ _ _).mp h₁
  cases h₁
  obtain ⟨rfl, rfl, -⟩ := ofValues_eq_ok lo hi bound hb
  -- the data is laid over last and touches no bound
  obtain ⟨data, rfl⟩ : ∃ data, m = n.booked spec.id ⟨bound, s, f, data⟩ := by
    unfold described at last
    split at last
    · obtain ⟨data, -, last⟩ := (bind_eq_ok_iff _ _ _).mp last
      cases last
      exact ⟨some data, rfl⟩
    · cases last
      exact ⟨none, rfl⟩
  have small : ∀ k, k ∈ s ∨ k ∈ f → Chronoplan.Addable k :=
    fun k hk => hk.elim (smallS k) (smallF k)
  by_cases absent : spec.duration = .null
  · obtain ⟨a, b, rfl, rfl, hlo, hhi⟩ := specDuration_absent spec absent s f _ _ hdur
    have exact : bound = .fixed (b - a) := by
      cases bound
      cases hlo
      cases hhi
      rfl
    subst exact
    have usable := ((ofValues_eq_ok_iff _ _ (Bound.exactly_integral (b - a))).mp hb).1
    exact ⟨_, ⟨hstart, hfinish, small, usable, .inl ⟨absent, a, b, rfl, rfl, rfl⟩⟩, rfl⟩
  · rw [specDuration_given spec absent] at hdur
    obtain ⟨lower, upper⟩ := durationPair_integral _ _ _ hs.duration hs.parts hdur
    have usable :=
      ((ofValues_eq_ok_iff bound bound (ofValues_integral _ _ bound lower upper hb)).mp hb).1
    have positive := Except.ok.inj (durationPair_lower _ _ _ hdur)
    obtain ⟨d, hd, hd0⟩ : ∃ d : ℤ, bound.lo = .int d ∧ 0 ≤ d := by
      obtain top | bottom | ⟨d, hd⟩ := usable.integral.lo_integral.cases
      · exact absurd top (usable.integral.lo_ne_posInf bound)
      · rw [bottom] at positive
        cases positive
      · rw [hd, Number.lt_int, decide_eq_false_iff_not, not_lt] at positive
        exact ⟨d, hd, positive⟩
    rw [hd] at hdur
    exact ⟨_, ⟨hstart, hfinish, small, usable, .inr ⟨d, hd0, hd, hdur⟩⟩, rfl⟩

end Network

/-! ### What is stored -/

namespace Network

variable {n m : Network}

/-- Points in order, each once, and constraints between points: what a network has in common with
every other, whatever numbers its bounds hold. -/
structure Proper (n : Network) : Prop where
  sorted : n.Sorted
  first : ∀ e ∈ n.constraints, e.1.1 ∈ n.points
  second : ∀ e ∈ n.constraints, e.1.2 ∈ n.points

theorem WellFormed.proper (w : n.WellFormed) (sorted : n.Sorted) : n.Proper :=
  ⟨sorted, fun e he => (w e he).first, fun e he => (w e he).second⟩

/-- Nothing is stored for a point that is not there. -/
theorem Proper.get?_eq_none (h : n.Proper) (a b : String) (absent : a ∉ n.points ∨ b ∉ n.points) :
    n.get? a b = none := by
  cases stored : n.get? a b with
  | none => rfl
  | some bound =>
    have mem := mem_of_find? (a, b) bound n.constraints stored
    exact absurd (h.first _ mem) (absent.resolve_right fun hb => hb (h.second _ mem))

@[simp] theorem get?_addPoint (n : Network) (p a b : String) :
    (n.addPoint p).get? a b = n.get? a b := rfl

section Entered

variable (n : Network) (id : String) (q : Booking)

@[simp] theorem get?_booked (a b : String) :
    (n.booked id q).get? a b = (n.entered id q).get? a b := by
  unfold booked
  cases q.data <;> rfl

theorem get?_entered_other (other : String) (apart : id ≠ other) :
    (n.entered id q).get? originPoint (startPoint other) = n.get? originPoint (startPoint other) ∧
      (n.entered id q).get? originPoint (endPoint other) = n.get? originPoint (endPoint other) ∧
      (n.entered id q).get? (startPoint other) (endPoint other) =
        n.get? (startPoint other) (endPoint other) := by
  unfold entered
  refine ⟨?_, ?_, ?_⟩ <;>
    cases q.start <;> cases q.finish <;> simp [limited, get?_addBound, apart]

variable (first : n.get? originPoint (startPoint id) = none)
  (last : n.get? originPoint (endPoint id) = none)
  (both : n.get? (startPoint id) (endPoint id) = none)

include both in
theorem get?_entered_length :
    (n.entered id q).get? (startPoint id) (endPoint id) = some q.length := by
  unfold entered
  cases q.start <;> cases q.finish <;> simp [limited, get?_addBound, both]

include first in
theorem get?_entered_start :
    (n.entered id q).get? originPoint (startPoint id) = q.start.map .fixed := by
  unfold entered
  cases q.start <;> cases q.finish <;> simp [limited, get?_addBound, first]

include last in
theorem get?_entered_finish :
    (n.entered id q).get? originPoint (endPoint id) = q.finish.map .fixed := by
  unfold entered
  cases q.start <;> cases q.finish <;> simp [limited, get?_addBound, last]

end Entered

/-! ### What is read -/

theorem finiteLower_int (b : Bound) (k : ℤ) (default : Number) (lower : b.lo = .int k)
    (small : Chronoplan.Addable k) : finiteLower (some b) default = .ok (.int k) := by
  obtain ⟨x, hx⟩ := Option.isSome_iff_exists.mp small
  have near : (Number.int k).toBinary64 = .ok x := (orFault_eq_ok_iff _ _ _).mpr hx
  simp only [finiteLower, lower, near, ok_bind, nearest_not_isInfinite k x hx, Bool.false_eq_true,
    if_false, pure_eq_ok]

theorem finiteLower_fixed (given : Option ℤ) (default : ℤ)
    (small : ∀ k ∈ given, Chronoplan.Addable k) :
    finiteLower (given.map .fixed) (.int default) = .ok (.int (given.getD default)) := by
  cases given with
  | none => rfl
  | some k => exact finiteLower_int _ k _ rfl (small k rfl)

end Network

namespace Booking

/-- The lower number of the bound on the duration. -/
def least (q : Booking) : ℤ := q.length.least.unbotD 0

/-- When the interval of a booking begins: at its start, or at zero. -/
def begins (q : Booking) : ℤ := q.start.getD 0

/-- When it ends: at its end, or after its least duration. -/
def ends (q : Booking) : ℤ := q.finish.getD (q.begins + q.least)

end Booking

section Asks

variable {spec : IntervalSpec} {n : Network} {q : Booking}

theorem IntervalSpec.Asks.lower (h : spec.Asks n q) : q.length.lo = .int q.least := by
  have known : ∀ d : ℤ, q.length.lo = .int d → q.length.lo = .int q.least := by
    intro d hd
    rw [Booking.least, Bound.least, hd]
    rfl
  rcases h.length with ⟨-, s, f, -, -, length⟩ | ⟨d, -, hd, -⟩
  · exact known (f - s) (by rw [length]; rfl)
  · exact known d hd

theorem IntervalSpec.Asks.small_least (h : spec.Asks n q) : Addable q.least := by
  have small := h.usable.small.1
  rwa [h.lower] at small

/-- A booking is read from its start, or from zero, to its end, or for its least duration. -/
theorem Network.readInterval_booked (proper : n.Proper) (h : spec.Asks n q)
    (first : startPoint spec.id ∉ n.points) (last : endPoint spec.id ∉ n.points) :
    (n.booked spec.id q).readInterval spec.id = .ok ⟨spec.id, .int q.begins, .int q.ends,
      ((n.booked spec.id q).metadata.find? sameText spec.id).getD []⟩ := by
  have start := finiteLower_fixed q.start 0 fun k hk => h.small k (.inl hk)
  have finish := finiteLower_fixed q.finish (q.begins + q.least) fun k hk => h.small k (.inr hk)
  have length := finiteLower_int q.length q.least (.int 0) h.lower h.small_least
  simp only [readInterval, anchorOf, shortest, get?_booked,
    n.get?_entered_start _ q (proper.get?_eq_none _ _ (.inr first)),
    n.get?_entered_finish _ q (proper.get?_eq_none _ _ (.inr last)),
    n.get?_entered_length _ q (proper.get?_eq_none _ _ (.inl first)), start, ok_bind, length,
    addNumbers, Number.add?_int, orFault]
  rw [show q.start.getD 0 = q.begins from rfl, finish]
  rfl

end Asks

namespace Network

section Points

variable (n : Network) (id : String) (q : Booking)

theorem mem_points_booked (p : String) : p ∈ (n.booked id q).points ↔
    p ∈ n.points ∨ p = startPoint id ∨ p = endPoint id ∨
      (q.start ≠ none ∨ q.finish ≠ none) ∧ p = originPoint := by
  have points : (n.booked id q).points = (n.entered id q).points := by
    unfold booked
    cases q.data <;> rfl
  rw [points]
  unfold entered
  cases q.start <;> cases q.finish <;>
    simp only [limited, Option.elim_none, Option.elim_some, mem_points_addBound, addPoint,
      mem_insertPoint] <;> simp <;> tauto

theorem booked_sorted (sorted : n.Sorted) : (n.booked id q).Sorted := by
  have added : ∀ (m : Network) (a b : String) (bound : Bound), m.Sorted →
      (m.addBound a b bound).Sorted := fun m a b bound h =>
    insertPoint_sorted b _ (insertPoint_sorted a m.points h)
  have limit : ∀ (m : Network) (p : String) (given : Option ℤ), m.Sorted →
      (m.limited p given .fixed).Sorted := by
    intro m p given h
    cases given with
    | none => exact h
    | some k => exact added m _ _ _ h
  have entered : (n.entered id q).Sorted := limit _ _ _ (limit _ _ _
    (added _ _ _ _ (insertPoint_sorted _ _ (insertPoint_sorted _ _ sorted))))
  unfold booked
  cases q.data <;> exact entered

/-- A booking adds its own name to those that are read. -/
theorem mem_intervalIds_booked (named : id ≠ "") (other : String) :
    other ∈ (n.booked id q).intervalIds ↔ other = id ∨ other ∈ n.intervalIds := by
  simp only [mem_intervalIds_iff, mem_points_booked]
  by_cases same : other = id
  · subst same
    simp [named]
  · simp [same]

theorem metadata_booked_other (other : String) (apart : id ≠ other) :
    (n.booked id q).metadata.find? sameText other = n.metadata.find? sameText other := by
  have kept : (n.entered id q).metadata = n.metadata := by
    unfold entered
    cases q.start <;> cases q.finish <;> rfl
  unfold booked
  cases q.data with
  | none => rw [Option.elim_none, kept]
  | some data =>
    rw [Option.elim_some, withMetadata, sameText_find?_insert, if_neg apart, kept]

theorem readInterval_booked_other (other : String) (apart : id ≠ other) :
    (n.booked id q).readInterval other = n.readInterval other := by
  obtain ⟨start, finish, length⟩ := n.get?_entered_other id q other apart
  simp only [← get?_booked] at start finish length
  exact readInterval_congr _ _ other start finish length
    (n.metadata_booked_other id q other apart)

end Points

end Network

/-! ### What consistency asks of a booking -/

namespace Network

variable {n : Network}

theorem Solves.stored {t : String → ℤ} (h : n.Solves t) {a b : String} {bound : Bound}
    (stored : n.get? a b = some bound) : bound.contains (.int (t b - t a)) = true :=
  h _ (mem_of_find? (a, b) bound n.constraints stored)

theorem limits_of_fixed {u v : String} {s : ℤ} (stored : n.get? u v = some (.fixed s))
    (hu : u ∈ n.points) (hv : v ∈ n.points) : n.Limits u v s ∧ n.Limits v u (-s) :=
  ⟨(limits_of_stored stored hu hv s).1 ((Number.atMost_int s s).mpr le_rfl),
    (limits_of_stored stored hu hv (-s)).2 ((Number.atMost_int (-s) (-s)).mpr le_rfl)⟩

section Contains

variable (proper : n.Proper) (id : String) (q : Booking) (first : startPoint id ∉ n.points)
  (last : endPoint id ∉ n.points) (s f : ℤ) (hs : q.start = some s) (hf : q.finish = some f)
include proper first last hs hf

theorem get?_booked_fixed :
    (n.booked id q).get? originPoint (startPoint id) = some (.fixed s) ∧
      (n.booked id q).get? originPoint (endPoint id) = some (.fixed f) ∧
      (n.booked id q).get? (startPoint id) (endPoint id) = some q.length := by
  simp only [get?_booked, n.get?_entered_start _ q (proper.get?_eq_none _ _ (.inr first)),
    n.get?_entered_finish _ q (proper.get?_eq_none _ _ (.inr last)),
    n.get?_entered_length _ q (proper.get?_eq_none _ _ (.inl first)), hs, hf]
  exact ⟨rfl, rfl, trivial⟩

/-- A duration that is fixed both ways lies in its bound where the bounds have a solution. -/
theorem booked_contains_of_solves (t : String → ℤ) (ht : (n.booked id q).Solves t) :
    q.length.contains (.int (f - s)) = true := by
  obtain ⟨start, finish, length⟩ := get?_booked_fixed proper id q first last s f hs hf
  have start := (Bound.exactly_contains s _).mp (ht.stored start)
  have finish := (Bound.exactly_contains f _).mp (ht.stored finish)
  have length := ht.stored length
  rwa [show t (endPoint id) - t (startPoint id) = f - s by omega] at length

/-- Start and end of 52 bits are found to contradict a bound that does not contain the time between
them, whatever numbers the network holds besides. -/
theorem booked_contains_of_consistent (integral : q.length.Integral)
    (hs' : s.natAbs < 2 ^ 52) (hf' : f.natAbs < 2 ^ 52)
    (consistent : (n.booked id q).isConsistent = .ok true) :
    q.length.contains (.int (f - s)) = true := by
  obtain ⟨start, finish, length⟩ := get?_booked_fixed proper id q first last s f hs hf
  have known := n.mem_points_booked id q
  have origin : originPoint ∈ (n.booked id q).points :=
    (known _).mpr (.inr (.inr (.inr ⟨.inl (hs ▸ Option.some_ne_none s), rfl⟩)))
  have begins : startPoint id ∈ (n.booked id q).points := (known _).mpr (.inr (.inl rfl))
  have ends : endPoint id ∈ (n.booked id q).points := (known _).mpr (.inr (.inr (.inl rfl)))
  have fromStart := limits_of_fixed start origin begins
  have fromFinish := limits_of_fixed finish origin ends
  have lasting := limits_of_stored length begins ends
  have start_tame : Tame s ∧ Tame (-s) := by unfold Tame; omega
  have finish_tame : Tame f ∧ Tame (-f) := by unfold Tame; omega
  have span_tame : Tame (s - f - 1) ∧ Tame (f - s - 1) := by unfold Tame; omega
  rw [Bound.contains, Bool.and_eq_true]
  constructor
  · -- from the end back to the start, to the origin and to the end
    by_contra short
    have low := (lasting _).2 (integral.lo_integral.neg_atMost_of_not_le short)
    rw [neg_sub] at low
    exact not_consistent_of_cycle ends begins origin (by simp) low fromStart.2 fromFinish.1
      span_tame.1 start_tame.2 finish_tame.1 (by omega) consistent
  · -- from the start to the end, to the origin and to the start
    by_contra long
    have high := (lasting _).1 (integral.hi_integral.atMost_of_not_le long)
    exact not_consistent_of_cycle begins ends origin (by simp) high fromFinish.2 fromStart.1
      span_tame.2 finish_tame.2 start_tame.1 (by omega) consistent

end Contains

theorem ticksOf_null_iff (v : Value) (given : Option ℤ)
    (h : n.ticksOf v = .ok (given.elim .null .int)) : v = .null ↔ given = none := by
  constructor
  · rintro rfl
    cases given with
    | none => rfl
    | some k => cases h
  · rintro rfl
    unfold ticksOf at h
    split at h
    · obtain ⟨k, -, h⟩ := (bind_eq_ok_iff _ _ _).mp h
      cases h
    · exact Except.ok.inj h

end Network

section Asks

variable {spec : IntervalSpec} {n : Network} {q : Booking} (h : spec.Asks n q)
include h

theorem IntervalSpec.Asks.contains_least : q.length.contains (.int q.least) = true := by
  have order := h.usable.integral.le_iff.mpr h.usable.ordered
  rw [h.lower] at order
  rw [Bound.contains, h.lower, order, Number.le_int, decide_eq_true le_rfl]
  rfl

/-- What is read lasts as long as was asked for where the network is consistent, unless only the end
is given. -/
theorem IntervalSpec.Asks.contains_span (proper : n.Proper) (first : startPoint spec.id ∉ n.points)
    (last : endPoint spec.id ∉ n.points)
    (sure : spec.finish ≠ .null → spec.start ≠ .null ∧
      ((n.booked spec.id q).WellFormed ∨ q.begins.natAbs < 2 ^ 52 ∧ q.ends.natAbs < 2 ^ 52))
    (consistent : (n.booked spec.id q).isConsistent = .ok true) :
    q.length.contains (.int (q.ends - q.begins)) = true := by
  cases hf : q.finish with
  | none =>
    have least : q.ends - q.begins = q.least := by
      rw [Booking.ends, hf, Option.getD_none, add_sub_cancel_left]
    rw [least]
    exact h.contains_least
  | some f =>
    have given : spec.finish ≠ .null := by
      rw [Ne, n.ticksOf_null_iff _ _ h.finish, hf]
      exact Option.some_ne_none f
    obtain ⟨anchored, exact⟩ := sure given
    rw [Ne, n.ticksOf_null_iff _ _ h.start] at anchored
    obtain ⟨s, hs⟩ := Option.ne_none_iff_exists'.mp anchored
    have begins : q.begins = s := by rw [Booking.begins, hs, Option.getD_some]
    have ends : q.ends = f := by rw [Booking.ends, hf, Option.getD_some]
    rw [begins, ends] at exact ⊢
    rcases exact with w | ⟨hs', hf'⟩
    · obtain ⟨-, t, ht⟩ := (Network.isConsistent_true_iff _ w).mp consistent
      exact Network.booked_contains_of_solves proper _ q first last s f hs hf t ht
    · exact Network.booked_contains_of_consistent proper _ q first last s f hs hf h.usable.integral
        hs' hf' consistent

theorem IntervalSpec.Asks.start_read (given : spec.start ≠ .null) :
    n.ticksOf spec.start = .ok (.int q.begins) := by
  rw [Ne, n.ticksOf_null_iff _ _ h.start] at given
  obtain ⟨s, hs⟩ := Option.ne_none_iff_exists'.mp given
  rw [h.start, Booking.begins, hs]
  rfl

theorem IntervalSpec.Asks.finish_read (given : spec.finish ≠ .null) :
    n.ticksOf spec.finish = .ok (.int q.ends) := by
  rw [Ne, n.ticksOf_null_iff _ _ h.finish] at given
  obtain ⟨f, hf⟩ := Option.ne_none_iff_exists'.mp given
  rw [h.finish, Booking.ends, hf]
  rfl

end Asks

/-! ### Visitors

A guided tour is booked when a visit and a call are asked for. -/

namespace Reception

def morning : Network := Network.standard.booked "tour" ⟨.fixed 3, some 8, none, none⟩

def visit : IntervalSpec :=
  { id := "visit", duration := .tuple [.int 5, .int 20], start := .int 10, finish := .int 22,
    metadata := .null }

def call : IntervalSpec :=
  { id := "call", duration := .int 5, start := .null, finish := .int 20, metadata := .null }

/-- The porch is reached when the reception opens, by a clock that counts in binary64. -/
def porch : Network :=
  Network.standard.addBound originPoint "porch" (.exactly (.float (.finite 0)))

def season : IntervalSpec :=
  { id := "season", duration := .tuple [.int 0, .int (2 ^ 54 + 1)], start := .int 0,
    finish := .int (2 ^ 54 + 2), metadata := .null }

/-- A request leaves a network consistent and is read back outside the bound that is stored for it. -/
def Misread (n : Network) (spec : IntervalSpec) (s f : ℤ) (bound : Bound) : Prop :=
  ∃ m i, n.addInterval spec = .ok m ∧ m.isConsistent = .ok true ∧
    m.readInterval spec.id = .ok i ∧ i.start = .int s ∧ i.finish = .int f ∧
    m.get? (startPoint spec.id) (endPoint spec.id) = some bound ∧
    bound.contains (.int (f - s)) = false

theorem misread_of {n : Network} {spec : IntervalSpec} {s f : ℤ} {bound : Bound}
    (stored : (n.addInterval spec).toOption.map (fun m =>
      m.get? (startPoint spec.id) (endPoint spec.id)) = some (some bound))
    (checked : (n.addInterval spec >>= Network.isConsistent).toOption = some true)
    (read : (n.addInterval spec >>= (·.readInterval spec.id)).toOption.map
      (fun i => (i.start, i.finish)) = some (.int s, .int f))
    (outside : bound.contains (.int (f - s)) = false) : Misread n spec s f bound := by
  obtain ⟨m, hm, stored⟩ := Option.map_eq_some_iff.mp stored
  have h := toOption_eq_some_iff.mp hm
  rw [h, ok_bind] at checked read
  obtain ⟨i, hi, times⟩ := Option.map_eq_some_iff.mp read
  obtain ⟨start, finish⟩ := Prod.mk.inj times
  exact ⟨m, i, h, toOption_eq_some_iff.mp checked, toOption_eq_some_iff.mp hi, start, finish, stored,
    outside⟩

theorem morning_wellFormed : morning.WellFormed := by
  have empty := Network.wellFormed_empty .second .medium false 4
  have points := Network.addPoint_wellFormed
    (Network.addPoint_wellFormed empty (startPoint "tour")) (endPoint "tour")
  have lasting := Network.addBound_wellFormed points (startPoint "tour") (endPoint "tour")
    (.fixed 3) (Bound.exactly_integral 3)
  exact Network.addBound_wellFormed lasting originPoint (startPoint "tour") (.fixed 8)
    (Bound.exactly_integral 8)

theorem morning_proper : morning.Proper :=
  morning_wellFormed.proper (Network.booked_sorted _ _ _ .nil)

theorem visit_integral : visit.Integral := by
  refine ⟨by rintro x ⟨⟩, ?_, .ofInt 10, .ofInt 22⟩
  rintro parts ⟨⟩
  simp [Value.Integral.ofInt]

end Reception

/-! ### A request is read back -/

/-- An accepted request is read back with the start and the end that it gives and, if it gives the
end only together with the start, with a span that its stored duration contains; every other
interval is read as before. -/
theorem Network.addInterval_read (n m : Network) (proper : n.Proper) (spec : IntervalSpec)
    (named : spec.id ≠ "") (integral : spec.Integral) (first : startPoint spec.id ∉ n.points)
    (last : endPoint spec.id ∉ n.points) (h : n.addInterval spec = .ok m) :
    ∃ s f : ℤ, ∃ bound data,
      m.readInterval spec.id = .ok ⟨spec.id, .int s, .int f, data⟩ ∧
      m.get? (startPoint spec.id) (endPoint spec.id) = some bound ∧
      (spec.start ≠ .null → n.ticksOf spec.start = .ok (.int s)) ∧
      (spec.finish ≠ .null → n.ticksOf spec.finish = .ok (.int f)) ∧
      (m.isConsistent = .ok true →
        (spec.finish ≠ .null → spec.start ≠ .null ∧
          (n.WellFormed ∨ s.natAbs < 2 ^ 52 ∧ f.natAbs < 2 ^ 52)) →
        bound.contains (.int (f - s)) = true) ∧
      (∀ is, n.intervals = .ok is → ∃ js, m.intervals = .ok js ∧
        js.Perm (⟨spec.id, .int s, .int f, data⟩ :: is)) ∧
      ∀ other, other ≠ spec.id → m.readInterval other = n.readInterval other ∧
        (other ∈ m.intervalIds ↔ other ∈ n.intervalIds) := by
  obtain ⟨q, asks, hm⟩ := addInterval_booked spec integral h
  have read := n.readInterval_booked proper asks first last
  have ids := n.mem_intervalIds_booked spec.id q named
  have fresh : spec.id ∉ n.intervalIds := fun old =>
    first ((n.mem_intervalIds_iff spec.id).mp old).2.1
  rw [← hm] at read ids
  refine ⟨q.begins, q.ends, q.length, _, read, ?_, asks.start_read, asks.finish_read, ?_, ?_, ?_⟩
  · rw [hm, get?_booked, n.get?_entered_length _ q (proper.get?_eq_none _ _ (.inl first))]
  · intro consistent sure
    refine asks.contains_span proper first last (fun given => ?_) (hm ▸ consistent)
    rw [← hm]
    exact (sure given).imp_right (Or.imp_left fun w =>
      ((addInterval_additions spec integral h).solves w).1)
  · intro is his
    refine n.intervals_perm m proper.sorted (hm ▸ n.booked_sorted _ q proper.sorted) _ fresh read
      ids (fun id hid => ?_) is his
    rw [hm]
    exact n.readInterval_booked_other _ q id fun same => fresh (same ▸ hid)
  · intro other apart
    rw [ids other, or_iff_right apart, hm]
    exact ⟨n.readInterval_booked_other _ q other apart.symm, Iff.rfl⟩

/-- A visit is read back beside the tour, within the duration that it was given. -/
theorem Reception.visit_read :
    Reception.morning.Proper ∧ Reception.visit.Integral ∧
      startPoint "visit" ∉ Reception.morning.points ∧
      endPoint "visit" ∉ Reception.morning.points ∧
      ∃ m bound data, Reception.morning.addInterval Reception.visit = .ok m ∧
        m.isConsistent = .ok true ∧
        m.readInterval "visit" = .ok ⟨"visit", .int 10, .int 22, data⟩ ∧
        m.get? (startPoint "visit") (endPoint "visit") = some bound ∧
        bound.contains (.int 12) = true ∧
        m.readInterval "tour" = Reception.morning.readInterval "tour" := by
  have accepted : (Reception.morning.addInterval Reception.visit).toOption.isSome = true := by
    decide +kernel
  have checked : (Reception.morning.addInterval Reception.visit >>=
      Network.isConsistent).toOption = some true := by decide +kernel
  obtain ⟨m, hm⟩ := Option.isSome_iff_exists.mp accepted
  have h := toOption_eq_some_iff.mp hm
  rw [h, ok_bind, toOption_eq_some_iff] at checked
  have first : startPoint "visit" ∉ Reception.morning.points := by decide +kernel
  have last : endPoint "visit" ∉ Reception.morning.points := by decide +kernel
  obtain ⟨s, f, bound, data, read, stored, start, finish, contains, -, others⟩ :=
    Reception.morning.addInterval_read m Reception.morning_proper Reception.visit (by decide)
      Reception.visit_integral first last h
  cases start nofun
  cases finish nofun
  exact ⟨Reception.morning_proper, Reception.visit_integral, first, last, m, bound, data, h,
    checked, read, stored,
    contains checked fun _ => ⟨nofun, .inl Reception.morning_wellFormed⟩,
    (others "tour" (by decide)).1⟩

/-- Where only the end is given, the start is read as zero, and the span leaves its bound. Beside a
bound in binary64, a start and an end of 55 bits are not found to contradict their bound. -/
theorem Reception.call_too_long :
    Network.standard.WellFormed ∧ Reception.call.Integral ∧
      Reception.Misread .standard Reception.call 0 20 (.fixed 5) ∧
      Reception.Misread Reception.porch Reception.season 0 (2 ^ 54 + 2)
        ⟨.int 0, .int (2 ^ 54 + 1)⟩ := by
  have integral : Reception.call.Integral := ⟨.ofInt 5, nofun, nofun, .ofInt 20⟩
  exact ⟨Network.wellFormed_empty .second .medium false 4, integral,
    Reception.misread_of (by decide +kernel) (by decide +kernel) (by decide +kernel)
      (by decide +kernel),
    Reception.misread_of (by decide +kernel) (by decide +kernel) (by decide +kernel)
      (by decide +kernel)⟩

end Chronoplan
