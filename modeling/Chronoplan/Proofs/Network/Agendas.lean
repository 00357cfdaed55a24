import Chronoplan.Proofs.Network.EarliestSlot
import Chronoplan.Proofs.Network.Requests

/-!
# Networks of intervals

A network to which only intervals were added has none but these. Each is read as it was when it
was added, and where no span is turned round that has no duration to show it, none goes back in
time. The free slots between them are then in order and clear of all. A duration that is given is
never negative.
-/

set_option autoImplicit false

namespace Chronoplan

/-! ### Negative durations -/

/-- The first number of a duration, in ticks, is below zero. -/
inductive Network.Negative (n : Network) : Value → Prop
  | number (d : ℤ) (below : d < 0) : n.Negative (.int d)
  | bounds (d : ℤ) (rest : List Value) (below : d < 0) : n.Negative (.tuple (.int d :: rest))
  | span (micros ticks : ℤ) (counts : spanTicks micros n.unit n.detail = .ok ticks)
      (below : ticks < 0) : n.Negative (.span micros)

theorem Network.durationBounds_negative (d : ℤ) (rest : List Value) (hd : d < 0) :
    durationBounds (.int d :: rest) = .error (.negativeDuration (.tuple (.int d :: rest))) := by
  have below : (Value.int d).lt (.int 0) = .ok true := by
    show Except.ok ((Number.int d).lt (.int 0)) = .ok true
    rw [Number.lt_int, decide_eq_true hd]
  simp only [durationBounds, below, ok_bind]
  rfl

theorem Network.Negative.durationPair_eq {n : Network} {v : Value} (h : n.Negative v) :
    ∃ parts, n.durationPair v = .error (.negativeDuration (.tuple parts)) := by
  cases h with
  | number d hd => exact ⟨_, durationBounds_negative d [.int d] hd⟩
  | bounds d rest hd => exact ⟨_, durationBounds_negative d rest hd⟩
  | span micros ticks counts hd =>
    refine ⟨[.int ticks, .int ticks], ?_⟩
    simp only [durationPair, counts, pure_eq_ok, ok_bind]
    exact durationBounds_negative ticks [.int ticks] hd

theorem Network.Negative.given {n : Network} {v : Value} (h : n.Negative v) : v ≠ .null := by
  cases h <;> exact nofun

/-- A negative duration is refused, once start and end are placed. -/
theorem Network.addInterval_negative (n : Network) (spec : IntervalSpec)
    (negative : n.Negative spec.duration) (start finish : Value)
    (hstart : n.ticksOf spec.start = .ok start) (hfinish : n.ticksOf spec.finish = .ok finish) :
    ∃ parts, n.addInterval spec = .error (.negativeDuration (.tuple parts)) := by
  obtain ⟨parts, refused⟩ := negative.durationPair_eq
  refine ⟨parts, ?_⟩
  unfold addInterval
  rw [hstart, ok_bind, hfinish, ok_bind, specDuration_given spec negative.given, refused,
    error_bind]

/-! ### One interval -/

/-- A start and an end that stand for the duration are in order, and an end without a start is not
before zero. -/
structure IntervalSpec.Forward (spec : IntervalSpec) (n : Network) : Prop where
  ordered : spec.duration = .null → ∀ s f : ℤ, n.ticksOf spec.start = .ok (.int s) →
    n.ticksOf spec.finish = .ok (.int f) → s ≤ f
  ended : spec.start = .null → ∀ f : ℤ, n.ticksOf spec.finish = .ok (.int f) → 0 ≤ f

section Asks

variable {spec : IntervalSpec} {n : Network} {q : Booking} (h : spec.Asks n q)
include h

theorem IntervalSpec.Asks.least_nonneg (ended : spec.duration = .null → q.finish = none) :
    0 ≤ q.least := by
  rcases h.length with ⟨absent, s, f, -, finish, -⟩ | ⟨d, positive, hd, -⟩
  · rw [ended absent] at finish
    cases finish
  · rw [Booking.least, Bound.least, hd]
    exact positive

/-- No span that was asked for goes back in time. -/
theorem IntervalSpec.Asks.begins_le_ends (proper : n.Proper)
    (first : startPoint spec.id ∉ n.points) (last : endPoint spec.id ∉ n.points)
    (forward : spec.Forward n) (t : String → ℤ) (ht : (n.booked spec.id q).Solves t) :
    q.begins ≤ q.ends := by
  cases hf : q.finish with
  | none =>
    have positive := h.least_nonneg fun _ => hf
    rw [Booking.ends, hf, Option.getD_none]
    omega
  | some f =>
    have finish := h.finish
    rw [hf] at finish
    rw [Booking.ends, hf, Option.getD_some]
    cases hs : q.start with
    | none =>
      rw [Booking.begins, hs, Option.getD_none]
      exact forward.ended ((n.ticksOf_null_iff _ _ h.start).mpr hs) f finish
    | some s =>
      have start := h.start
      rw [hs] at start
      rw [Booking.begins, hs, Option.getD_some]
      by_cases absent : spec.duration = .null
      · exact forward.ordered absent s f start finish
      · have within := Network.booked_contains_of_solves proper _ q first last s f hs hf t ht
        have lower := (Bool.and_eq_true _ _ ▸ within : _ ∧ _).1
        rw [h.lower, Number.le_int, decide_eq_true_eq] at lower
        have positive := h.least_nonneg fun unspecified => absurd unspecified absent
        omega

end Asks

/-! ### All intervals -/

namespace Network

theorem ticksOf_booked (n : Network) (id : String) (q : Booking) (v : Value) :
    (n.booked id q).ticksOf v = n.ticksOf v := by
  have units : (n.booked id q).unit = n.unit ∧ (n.booked id q).detail = n.detail := by
    unfold booked entered
    cases q.data <;> cases q.start <;> cases q.finish <;> exact ⟨rfl, rfl⟩
  unfold ticksOf
  rw [units.1, units.2]

/-- A network of intervals of the given names, which counts time as another does: no other points
are there but the origin, and each interval is read between integers that every solution finds in
order. -/
structure Agenda (base n : Network) (ids : List String) : Prop where
  wellFormed : n.WellFormed
  sorted : n.Sorted
  ticks : ∀ v, n.ticksOf v = base.ticksOf v
  points : ∀ p ∈ n.points, p = originPoint ∨ ∃ id ∈ ids, p = startPoint id ∨ p = endPoint id
  reads : ∀ id ∈ ids, ∃ (s f : ℤ) (data : Metadata),
    n.readInterval id = .ok ⟨id, .int s, .int f, data⟩ ∧ ∀ t, n.Solves t → s ≤ f

variable {base n m : Network} {ids : List String}

theorem Agenda.fresh (h : Agenda base n ids) (id : String) (new : id ∉ ids) :
    startPoint id ∉ n.points ∧ endPoint id ∉ n.points := by
  constructor
  · intro hp
    rcases h.points _ hp with origin | ⟨other, hother, first | last⟩
    · exact startPoint_ne_origin id origin
    · exact new ((startPoint_inj id other).mp first ▸ hother)
    · exact startPoint_ne_endPoint id other last
  · intro hp
    rcases h.points _ hp with origin | ⟨other, hother, first | last⟩
    · exact endPoint_ne_origin id origin
    · exact endPoint_ne_startPoint id other first
    · exact new ((endPoint_inj id other).mp last ▸ hother)

/-- A further interval is read beside the others. -/
theorem Agenda.addInterval (h : Agenda base n ids) (spec : IntervalSpec)
    (integral : spec.Integral) (forward : spec.Forward base) (new : spec.id ∉ ids)
    (hm : n.addInterval spec = .ok m) : Agenda base m (spec.id :: ids) := by
  obtain ⟨w, narrows⟩ := (addInterval_additions spec integral hm).solves h.wellFormed
  obtain ⟨first, last⟩ := h.fresh spec.id new
  have proper := h.wellFormed.proper h.sorted
  have forward : spec.Forward n := by
    constructor
    · simpa only [h.ticks] using forward.ordered
    · simpa only [h.ticks] using forward.ended
  obtain ⟨q, asks, rfl⟩ := addInterval_booked spec integral hm
  constructor
  · exact w
  · exact n.booked_sorted spec.id q h.sorted
  · exact fun v => (n.ticksOf_booked spec.id q v).trans (h.ticks v)
  · intro p hp
    rcases (n.mem_points_booked spec.id q p).mp hp with old | rfl | rfl | ⟨-, rfl⟩
    · obtain origin | ⟨id, hid, point⟩ := h.points p old
      · exact .inl origin
      · exact .inr ⟨id, List.mem_cons_of_mem _ hid, point⟩
    · exact .inr ⟨spec.id, List.mem_cons_self, .inl rfl⟩
    · exact .inr ⟨spec.id, List.mem_cons_self, .inr rfl⟩
    · exact .inl rfl
  · intro id hid
    rcases List.mem_cons.mp hid with rfl | old
    · exact ⟨q.begins, q.ends, _, n.readInterval_booked proper asks first last,
        fun t ht => asks.begins_le_ends proper first last forward t ht⟩
    · obtain ⟨s, f, data, read, order⟩ := h.reads id old
      have apart : spec.id ≠ id := fun same => new (same ▸ old)
      exact ⟨s, f, data, (n.readInterval_booked_other _ q id apart).trans read,
        fun t ht => order t (narrows t ht)⟩

/-- So is every one of a list of intervals of different names. -/
theorem Agenda.addIntervals (specs : List IntervalSpec) (h : Agenda base n ids)
    (each : ∀ spec ∈ specs, spec.Integral ∧ spec.Forward base)
    (distinct : (specs.map (·.id)).Nodup) (new : ∀ spec ∈ specs, spec.id ∉ ids)
    (hm : specs.foldlM Network.addInterval n = .ok m) :
    Agenda base m ((specs.map (·.id)).reverse ++ ids) := by
  induction specs generalizing n ids with
  | nil =>
    cases hm
    exact h
  | cons spec specs ih =>
    obtain ⟨n', hn, hm⟩ := (bind_eq_ok_iff _ _ _).mp hm
    obtain ⟨⟨integral, forward⟩, each⟩ := List.forall_mem_cons.mp each
    obtain ⟨first, new⟩ := List.forall_mem_cons.mp new
    obtain ⟨apart, distinct⟩ := List.nodup_cons.mp distinct
    have added := ih (h.addInterval spec integral forward first hn) each distinct
      (fun other hother => ?_) hm
    · simpa using added
    · intro hid
      rcases List.mem_cons.mp hid with same | old
      · exact apart (List.mem_map.mpr ⟨other, hother, same⟩)
      · exact new other hother old

/-- The intervals of a consistent agenda are read, and none goes back in time. -/
theorem Agenda.intervals (h : Agenda base n ids) (consistent : n.isConsistent = .ok true) :
    ∃ is, n.intervals = .ok is ∧ ∀ i ∈ is, i.span.Whole := by
  obtain ⟨-, t, ht⟩ := (n.isConsistent_true_iff h.wellFormed).mp consistent
  have listed : ∀ id ∈ n.intervalIds, id ∈ ids := by
    intro id hid
    by_contra new
    exact (h.fresh id new).1 ((n.mem_intervalIds_iff id).mp hid).2.1
  obtain ⟨is, his⟩ := n.exists_intervals_iff.mpr fun id hid => by
    obtain ⟨s, f, data, read, -⟩ := h.reads id (listed id hid)
    exact ⟨_, read⟩
  refine ⟨is, his, fun i hi => ?_⟩
  obtain ⟨id, hid, hread⟩ := (n.intervals_read is his).2 i hi
  obtain ⟨s, f, data, read, order⟩ := h.reads id (listed id hid)
  cases hread.symm.trans read
  exact ⟨s, f, order t ht, rfl⟩

/-- Between intervals that are read forward the free slots are in order and clear of all. -/
theorem freeSlots_apart (is : List Interval) (his : n.intervals = .ok is)
    (whole : ∀ i ∈ is, i.span.Whole) (d a b : ℤ) :
    ∃ slots, n.freeSlots (.num (.int d)) (.int a) (.int b) = .ok slots ∧
      slots.Pairwise (fun g k => g.finish.le k.start = true) ∧
      ∀ g ∈ slots, (∃ s e : ℤ, g = ⟨.int s, .int e⟩ ∧ a ≤ s ∧ s < e ∧ e ≤ b) ∧
        ∀ i ∈ is, overlaps i.start i.finish g.start g.finish = false := by
  have spans := List.forall_mem_map.mpr whole
  refine ⟨_, n.freeSlots_eq_filter is his whole d a b, ?_, fun g hg => ?_⟩
  · exact (Slot.gaps_ordered _ spans a b).filter _
  · have gap := List.mem_of_mem_filter hg
    exact ⟨Slot.gaps_finite _ spans a b g gap,
      List.forall_mem_map.mp (Slot.gaps_clear _ spans a b g gap)⟩

end Network

/-! ### A dance studio -/

namespace Studio

def sessions : List IntervalSpec := [
  { id := "dance", duration := .int 3, start := .int 10, finish := .null, metadata := .null },
  { id := "choir", duration := .tuple [.int 2, .int 4], start := .null, finish := .int 4,
    metadata := .null },
  { id := "yoga", duration := .null, start := .int 5, finish := .int 8, metadata := .null }]

def shift : IntervalSpec :=
  { id := "shift", duration := .null, start := .int 10, finish := .int 5, metadata := .null }

theorem sessions_each :
    ∀ spec ∈ sessions, spec.Integral ∧ spec.Forward (.empty .second .medium false 4) := by
  have pair : ∀ parts, Value.tuple [.int 2, .int 4] = .tuple parts → ∀ p ∈ parts, p.Integral := by
    rintro parts ⟨⟩
    simp [Value.Integral.ofInt]
  refine List.forall_mem_cons.mpr ⟨⟨⟨.ofInt 3, nofun, .ofInt 10, nofun⟩, nofun, nofun⟩, ?_⟩
  refine List.forall_mem_cons.mpr ⟨⟨⟨nofun, pair, nofun, .ofInt 4⟩, nofun, ?_⟩, ?_⟩
  · rintro - f ⟨⟩
    decide
  · refine List.forall_mem_singleton.mpr ⟨⟨nofun, nofun, .ofInt 5, .ofInt 8⟩, ?_, nofun⟩
    rintro - s f ⟨⟩ ⟨⟩
    decide

end Studio

/-! ### Intervals and what is free between them -/

/-- Where intervals of different names were added to an empty network, and none of them was turned
round by a start and an end that stand for its duration or by an end before zero, all are read
forward, and the free slots of a window are in order and clear of all. A negative duration is
refused by every network. -/
theorem Network.addIntervals_apart (unit : TimeUnit) (detail : Detail) (parallel : Bool)
    (workers : Int) (specs : List IntervalSpec) (n : Network)
    (each : ∀ spec ∈ specs, spec.Integral ∧ spec.Forward (.empty unit detail parallel workers))
    (distinct : (specs.map (·.id)).Nodup)
    (built : specs.foldlM Network.addInterval (.empty unit detail parallel workers) = .ok n)
    (consistent : n.isConsistent = .ok true) :
    (∃ is, n.intervals = .ok is ∧
      (∀ i ∈ is, ∃ s f : ℤ, i.start = .int s ∧ i.finish = .int f ∧ s ≤ f) ∧
      ∀ d a b : ℤ, ∃ slots, n.freeSlots (.num (.int d)) (.int a) (.int b) = .ok slots ∧
        slots.Pairwise (fun g k => g.finish.le k.start = true) ∧
        ∀ g ∈ slots, (∃ s e : ℤ, g = ⟨.int s, .int e⟩ ∧ a ≤ s ∧ s < e ∧ e ≤ b) ∧
          ∀ i ∈ is, overlaps i.start i.finish g.start g.finish = false) ∧
    ∀ (m : Network) (spec : IntervalSpec), m.Negative spec.duration →
      (∃ start, m.ticksOf spec.start = .ok start) →
      (∃ finish, m.ticksOf spec.finish = .ok finish) →
      ∃ parts, m.addInterval spec = .error (.negativeDuration (.tuple parts)) := by
  have empty : Agenda (.empty unit detail parallel workers)
      (.empty unit detail parallel workers) [] :=
    ⟨wellFormed_empty unit detail parallel workers, .nil, fun _ => rfl, nofun, nofun⟩
  constructor
  · obtain ⟨is, his, whole⟩ :=
      (empty.addIntervals specs each distinct nofun built).intervals consistent
    refine ⟨is, his, fun i hi => ?_, n.freeSlots_apart is his whole⟩
    obtain ⟨s, f, order, span⟩ := whole i hi
    obtain ⟨start, finish⟩ := Slot.mk.inj span
    exact ⟨s, f, start, finish, order⟩
  · rintro m spec negative ⟨start, hstart⟩ ⟨finish, hfinish⟩
    exact m.addInterval_negative spec negative start finish hstart hfinish

/-- The studio is free between its sessions, and it takes none of a negative duration. -/
theorem Studio.free_between :
    (∀ spec ∈ Studio.sessions, spec.Integral ∧ spec.Forward (.empty .second .medium false 4)) ∧
      (Studio.sessions.map (·.id)).Nodup ∧
      ∃ n is slots, Studio.sessions.foldlM Network.addInterval (.empty .second .medium false 4) =
          .ok n ∧ n.isConsistent = .ok true ∧ n.intervals = .ok is ∧
        n.freeSlots (.num (.int 1)) (.int 0) (.int 20) = .ok slots ∧
        slots.Pairwise (fun g k => g.finish.le k.start = true) ∧
        (∀ g ∈ slots, ∀ i ∈ is, overlaps i.start i.finish g.start g.finish = false) ∧
        ∃ parts, n.addInterval { Studio.shift with duration := .int (-1) } =
          .error (.negativeDuration (.tuple parts)) := by
  have distinct : (Studio.sessions.map (·.id)).Nodup := by decide
  have accepted : (Studio.sessions.foldlM Network.addInterval
      (.empty .second .medium false 4)).toOption.isSome = true := by decide +kernel
  have checked : (Studio.sessions.foldlM Network.addInterval
      (.empty .second .medium false 4) >>= Network.isConsistent).toOption = some true := by
    decide +kernel
  obtain ⟨n, hn⟩ := Option.isSome_iff_exists.mp accepted
  have built := toOption_eq_some_iff.mp hn
  rw [built, ok_bind, toOption_eq_some_iff] at checked
  obtain ⟨⟨is, his, -, free⟩, refused⟩ := Network.addIntervals_apart .second .medium false 4
    Studio.sessions n Studio.sessions_each distinct built checked
  obtain ⟨slots, found, ordered, clear⟩ := free 1 0 20
  exact ⟨Studio.sessions_each, distinct, n, is, slots, built, checked, his, found, ordered,
    fun g hg => (clear g hg).2,
    refused n _ (.number (-1) (by decide)) ⟨_, rfl⟩ ⟨_, rfl⟩⟩

/-- A shift that ends before it starts is accepted, and the slots before and after it overlap. -/
theorem Studio.shift_backwards :
    Studio.shift.Integral ∧ ∃ n i,
      Network.standard.addInterval Studio.shift = .ok n ∧ n.isConsistent = .ok true ∧
      n.intervals = .ok [i] ∧ i.start = .int 10 ∧ i.finish = .int 5 ∧
      n.freeSlots (.num (.int 1)) (.int 0) (.int 20) =
        .ok [⟨.int 0, .int 10⟩, ⟨.int 5, .int 20⟩] := by
  have checked : (Network.standard.addInterval Studio.shift >>=
      Network.isConsistent).toOption = some true := by decide +kernel
  have read : (Network.standard.addInterval Studio.shift >>=
      Network.intervals).toOption.map (fun is => is.map Interval.span) =
        some [⟨.int 10, .int 5⟩] := by decide +kernel
  have free : (Network.standard.addInterval Studio.shift >>= fun n =>
      n.freeSlots (.num (.int 1)) (.int 0) (.int 20)).toOption =
        some [⟨.int 0, .int 10⟩, ⟨.int 5, .int 20⟩] := by decide +kernel
  cases added : Network.standard.addInterval Studio.shift with
  | error e =>
    rw [added] at checked
    cases checked
  | ok n =>
    rw [added, ok_bind] at checked read free
    obtain ⟨is, his, spans⟩ := Option.map_eq_some_iff.mp read
    obtain ⟨i, rfl, span⟩ := List.map_eq_singleton_iff.mp spans
    obtain ⟨start, finish⟩ := Slot.mk.inj span
    exact ⟨⟨nofun, nofun, .ofInt 10, .ofInt 5⟩, n, i, rfl, toOption_eq_some_iff.mp checked,
      toOption_eq_some_iff.mp his, start, finish, toOption_eq_some_iff.mp free⟩

end Chronoplan
