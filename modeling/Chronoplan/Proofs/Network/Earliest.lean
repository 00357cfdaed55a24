import Chronoplan.Proofs.Network.Propagation
import Chronoplan.Proofs.Network.Readings

/-!
# The earliest schedule

A propagated network stores, from the origin to every point, a bound that begins at the least time
the point can have. These times solve the network together, since no detour back to the origin is
shorter than the derived distance, and the intervals of the network are read at them.
-/

set_option autoImplicit false

namespace Chronoplan

namespace Network

variable {n m : Network}

/-! ### Least times -/

/-- Every point has a finite derived lower number from the origin. -/
def Anchored (n : Network) : Prop :=
  ∀ p ∈ n.points, ∃ b, n.derived originPoint p = .ok b ∧ ∃ k, b.lo = .int k

/-- The stored lower number from the origin as a time, zero where there is none. -/
def earliest (n : Network) (p : String) : ℤ := (n.least originPoint p).unbotD 0

theorem mem_of_derived (w : n.WellFormed) (ha : n.Addable) (u v : String) (b : Bound)
    (h : n.derived u v = .ok b) : u ∈ n.points := by
  rw [derived, (check_eq_ok_iff n w _).mpr ⟨ha, rfl⟩, ok_bind] at h
  exact (n.report.mem_of_derived u v b h).1

namespace Propagated

variable (h : n.Propagated m)
include h

theorem earliest_origin : m.earliest originPoint = 0 := by
  have unstored : m.get? originPoint originPoint = none := by
    rw [Option.eq_none_iff_forall_ne_some]
    intro b hb
    exact ((h.get?_eq_some_iff _ _ b).mp hb).2.2.1 rfl
  rw [earliest, least, unstored]
  rfl

section Anchored

variable (w : n.WellFormed) (anchored : n.Anchored)
include w anchored

theorem origin_mem (p : String) (hp : p ∈ n.points) : originPoint ∈ n.points := by
  obtain ⟨b, hb, -⟩ := anchored p hp
  exact mem_of_derived w h.addable _ _ b hb

theorem tightest_origin (p : String) (hp : p ∈ n.points) :
    ∃ k, (n.tightest originPoint p).lo = .int k := by
  obtain ⟨b, hb, limited⟩ := anchored p hp
  rw [derived_eq_tightest w h.addable _ _ (h.origin_mem w anchored p hp) hp] at hb
  cases hb
  exact limited

/-- The bound that is stored from the origin begins at the earliest time. -/
theorem get?_origin (p : String) (hp : p ∈ n.points) (apart : p ≠ originPoint) :
    m.get? originPoint p = some (n.tightest originPoint p) ∧
      (n.tightest originPoint p).lo = .int (m.earliest p) := by
  obtain ⟨k, hk⟩ := h.tightest_origin w anchored p hp
  have limited : n.tightest originPoint p ≠ .unbounded := by
    intro unlimited
    rw [unlimited] at hk
    cases hk
  have stored := (h.get?_eq_some_iff originPoint p _).mpr
    ⟨h.origin_mem w anchored p hp, hp, apart.symm, rfl, limited⟩
  refine ⟨stored, ?_⟩
  rw [earliest, least, stored, Option.elim_some, Bound.least, hk]
  rfl

theorem least_origin (p : String) (hp : p ∈ n.points) (apart : p ≠ originPoint) :
    m.least originPoint p = (m.earliest p : ℤ) := by
  obtain ⟨stored, begins⟩ := h.get?_origin w anchored p hp apart
  rw [least, stored, Option.elim_some, Bound.least, begins]

/-- The way back to the origin takes at most the earliest time, negated. -/
theorem closed_origin (p : String) (hp : p ∈ n.points) :
    n.closed (placeIn n.points p) (placeIn n.points originPoint) = (-m.earliest p : ℤ) := by
  by_cases apart : p = originPoint
  · rw [apart, h.earliest_origin, closed_diagonal h.found _ (placeIn_lt n.points _ (apart ▸ hp))]
    rfl
  · obtain ⟨-, begins⟩ := h.get?_origin w anchored p hp apart
    apply Number.ofDistance_injective
    rw [← Number.neg_neg_ofDistance, Number.ofDistance_coe, ← Number.neg_int]
    exact congrArg Number.neg begins

/-- The earliest times solve the network: a step is no shorter than what it saves on the way back
to the origin. -/
theorem earliest_solves (sorted : n.Sorted) : n.Solves m.earliest := by
  rw [← n.meets_byPlace_iff w, ← Distances.meets_stage n.size _ n.distances n.size (le_refl _)]
  intro i hi j hj
  have back : ∀ k (hk : k < n.size), n.closed k (placeIn n.points originPoint)
      = (-n.byPlace m.earliest k : ℤ) := by
    intro k hk
    have known := h.closed_origin w anchored n.points[k] (List.getElem_mem hk)
    rwa [sorted.placeIn_getElem k hk, ← n.byPlace_placeIn m.earliest _ (List.getElem_mem hk),
      sorted.placeIn_getElem k hk] at known
  have detour := n.closed_of_consistent h.found j hj i (placeIn n.points originPoint)
  rw [back i hi, back j hj] at detour
  change _ ≤ n.closed i j
  cases hij : n.closed i j using WithTop.recTopCoe with
  | top => exact le_top
  | coe d =>
    rw [hij, ← WithTop.coe_add, WithTop.coe_le_coe] at detour
    rw [WithTop.coe_le_coe]
    omega

/-- No solution that begins at zero has a point before its earliest time. -/
theorem earliest_le (t : String → ℤ) (solves : n.Solves t) (start : t originPoint = 0) (p : String)
    (hp : p ∈ n.points) : m.earliest p ≤ t p := by
  have origin := h.origin_mem w anchored p hp
  have meets := (Distances.meets_stage n.size _ n.distances n.size (le_refl _)).mpr
    ((n.meets_byPlace_iff w t).mpr solves)
  have back := meets _ (placeIn_lt n.points p hp) _ (placeIn_lt n.points _ origin)
  rw [n.byPlace_placeIn t p hp, n.byPlace_placeIn t _ origin, start] at back
  have known := back.trans_eq (h.closed_origin w anchored p hp)
  rw [WithTop.coe_le_coe] at known
  omega

theorem earliest_le_of_allows (t : String → ℚ) (allows : n.Allows t) (start : t originPoint = 0)
    (p : String) (hp : p ∈ n.points) : m.earliest p ≤ t p := by
  have whole := (Network.allows_iff w t).mp allows 0
  have floor := h.earliest_le w anchored _ whole (by simp [start]) p hp
  rw [add_zero] at floor
  exact Int.le_floor.mp floor

end Anchored

/-! ### Reading -/

theorem lower_returns (u v : String) (b : Bound) (hb : m.get? u v = some b) :
    ∃ x, b.lo.toBinary64 = .ok x := by
  obtain ⟨hu, hv, apart, rfl, -⟩ := (h.get?_eq_some_iff u v b).mp hb
  exact exists_toBinary64_neg _ ((exists_derivedConstraints_iff n).mp ⟨_, h.derived⟩ v hv u hu
    apart.symm)

end Propagated

theorem Propagated.endsAt_eq (h : n.Propagated m) (w : n.WellFormed) (anchored : n.Anchored)
    (id : String) (hid : id ∈ m.intervalIds) : m.endsAt id = m.earliest (endPoint id) := by
  have known : endPoint id ∈ m.points := by
    have both := (List.mem_filter.mp hid).2
    simp only [Bool.and_eq_true, List.contains_iff_mem] at both
    exact both.2
  rw [h.points] at known
  rw [endsAt, h.least_origin w anchored _ known (endPoint_ne_origin id)]
  rfl

/-- Read after propagation, a network tells its earliest schedule: the stored lower numbers from
the origin, with the origin at zero, are the least times that solve it, integers or not, and they
are the times of its intervals. -/
structure TellsEarliest (n m : Network) (is : List Interval) : Prop where
  stored : ∀ p ∈ n.points, p ≠ originPoint →
    ∃ b, m.get? originPoint p = some b ∧ b.lo = .int (m.earliest p)
  origin : m.earliest originPoint = 0
  solves : n.Solves m.earliest ∧ m.Solves m.earliest
  least : ∀ t, n.Solves t → t originPoint = 0 → ∀ p ∈ n.points, m.earliest p ≤ t p
  leastOfAll : ∀ t, n.Allows t → t originPoint = 0 → ∀ p ∈ n.points, m.earliest p ≤ t p
  complete : ∀ id ∈ n.intervalIds, ∃ i ∈ is, i.id = id
  read : ∀ i ∈ is, i.start = .int (m.earliest (startPoint i.id)) ∧
    i.finish = .int (m.earliest (endPoint i.id))

theorem Propagated.tellsEarliest (h : n.Propagated m) (w : n.WellFormed) (sorted : n.Sorted)
    (anchored : n.Anchored) (is : List Interval) (his : m.intervals = .ok is) :
    TellsEarliest n m is := by
  have w' := h.wellFormed
  have solves := h.earliest_solves w anchored sorted
  have ids : m.intervalIds = n.intervalIds := by rw [intervalIds, intervalIds, h.points]
  obtain ⟨each, only⟩ := m.intervals_read is his
  refine ⟨?_, h.earliest_origin, ⟨solves, (h.solves_iff w sorted _).mpr solves⟩,
    h.earliest_le w anchored, h.earliest_le_of_allows w anchored, ?_, ?_⟩
  · intro p hp apart
    exact ⟨_, h.get?_origin w anchored p hp apart⟩
  · intro id hid
    obtain ⟨i, hi, hread⟩ := each id (ids ▸ hid)
    exact ⟨i, hi, m.readInterval_id id i hread⟩
  · intro i hi
    obtain ⟨id, hid, hread⟩ := only i hi
    obtain ⟨begins, ends⟩ := m.readInterval_times w' id i hread
    rw [m.readInterval_id id i hread, ← h.endsAt_eq w anchored id hid]
    exact ⟨begins, ends⟩

end Network

/-! ## A harvest

The grass dries between the mowing and the raking. -/

namespace Harvest

def mowing : IntervalSpec :=
  { id := "mow", duration := .tuple [.int 2, .int 4], start := .int 3, finish := .null,
    metadata := .null }

def mown : Network :=
  (((Network.standard.addPoint "mow_start").addPoint "mow_end").addBound "mow_start" "mow_end"
    ⟨.int 2, .int 4⟩).addBound originPoint "mow_start" ⟨.int 3, .int 3⟩

def dried : Network := mown.addBound "mow_end" "rake_start" ⟨.int 1, .int 10⟩

def network : Network := dried.addBound "rake_start" "rake_end" ⟨.int 1, .posInf⟩

theorem network_reachable : network.Reachable := by
  have parts : ∀ ps, mowing.duration = .tuple ps → ∀ p ∈ ps, p.Integral := by
    rintro ps ⟨⟩ p hp
    rcases List.mem_pair.mp hp with rfl | rfl
    · exact .ofInt 2
    · exact .ofInt 4
  have infinite : (Value.float .posInf).Integral := by
    rintro x ⟨⟩
    exact ⟨⊤, .inl rfl⟩
  have one : mown.Reachable := .write Network.standard _ (.interval mowing)
    (.empty .second .medium false 4)
    ⟨fun x h => (by cases h), parts, .ofInt 3, fun x h => (by cases h)⟩ rfl
  have two : dried.Reachable := .write _ _ (.bound "mow_end" "rake_start" (.int 1) (.int 10)) one
    ⟨.ofInt 1, .ofInt 10⟩ rfl
  exact .write _ _ (.bound "rake_start" "rake_end" (.int 1) (.float .posInf)) two
    ⟨.ofInt 1, infinite⟩ rfl

theorem network_consistent : network.isConsistent = .ok true := by rfl

theorem network_anchored : network.Anchored := by
  have points : network.points = ["mow_end", "mow_start", "origin", "rake_end", "rake_start"] := rfl
  simp only [Network.Anchored, points, List.forall_mem_cons]
  exact ⟨⟨⟨.int 5, .int 7⟩, rfl, 5, rfl⟩, ⟨⟨.int 3, .int 3⟩, rfl, 3, rfl⟩,
    ⟨⟨.int 0, .int 0⟩, rfl, 0, rfl⟩, ⟨⟨.int 7, .posInf⟩, rfl, 7, rfl⟩,
    ⟨⟨.int 6, .int 17⟩, rfl, 6, rfl⟩, List.forall_mem_nil _⟩

theorem network_storable : network.Storable := by
  have stored : network.constraints = [
      (("mow_start", "mow_end"), ⟨.int 2, .int 4⟩),
      (("mow_end", "mow_start"), ⟨.int (-4), .int (-2)⟩),
      (("origin", "mow_start"), ⟨.int 3, .int 3⟩),
      (("mow_start", "origin"), ⟨.int (-3), .int (-3)⟩),
      (("mow_end", "rake_start"), ⟨.int 1, .int 10⟩),
      (("rake_start", "mow_end"), ⟨.int (-10), .int (-1)⟩),
      (("rake_start", "rake_end"), ⟨.int 1, .posInf⟩),
      (("rake_end", "rake_start"), ⟨.negInf, .int (-1)⟩)] := rfl
  refine Network.storable_of_small network_reachable.wellFormed 10 ?_ (by decide +kernel)
  simp [stored, or_imp, forall_and]

end Harvest

/-! ## What is read after propagation -/

/-- When every point has a finite derived lower number from the origin, what is read after
propagation is the earliest schedule. It is read exactly when no derived number is too large, and
a number that is too large stops the propagation. -/
theorem Network.propagate_tells_earliest (n : Network) (r : n.Reachable)
    (c : n.isConsistent = .ok true) (anchored : n.Anchored) :
    (n.Storable ↔ ∃ m is, n.propagate = .ok m ∧ m.intervals = .ok is) ∧
      (¬ n.Storable → n.propagate = .error .tooLarge) ∧
      ∀ m is, n.propagate = .ok m → m.intervals = .ok is → TellsEarliest n m is := by
  have w := r.wellFormed
  refine ⟨?_, propagate_tooLarge w c, ?_⟩
  · constructor
    · intro storable
      obtain ⟨m, hm⟩ := (exists_propagate_iff w c).mp storable
      have h := propagated_of_ok w c hm
      obtain ⟨is, his⟩ := m.exists_intervals h.wellFormed h.lower_returns
      exact ⟨m, is, hm, his⟩
    · rintro ⟨m, is, hm, -⟩
      exact (exists_propagate_iff w c).mpr ⟨m, hm⟩
  · intro m is hm his
    exact (propagated_of_ok w c hm).tellsEarliest w r.sorted anchored is his

/-- Three seconds after the origin the mowing begins, and the raking as soon as it can. -/
theorem Harvest.early :
    Harvest.network.Reachable ∧ Harvest.network.isConsistent = .ok true ∧
      Harvest.network.Anchored ∧ Harvest.network.Storable ∧
      ∃ m is, Harvest.network.propagate = .ok m ∧ m.intervals = .ok is ∧
        Network.TellsEarliest Harvest.network m is ∧
        is.map (fun i => (i.id, i.start, i.finish)) =
          [("mow", .int 3, .int 5), ("rake", .int 6, .int 7)] := by
  obtain ⟨returns, -, tells⟩ := Harvest.network.propagate_tells_earliest Harvest.network_reachable
    Harvest.network_consistent Harvest.network_anchored
  obtain ⟨m, is, hm, his⟩ := returns.mp Harvest.network_storable
  have times : (Harvest.network.propagate >>= Network.intervals).toOption.map
      (·.map fun i => (i.id, i.start, i.finish)) =
        some [("mow", .int 3, .int 5), ("rake", .int 6, .int 7)] := by decide +kernel
  rw [hm, ok_bind, his] at times
  exact ⟨Harvest.network_reachable, Harvest.network_consistent, Harvest.network_anchored,
    Harvest.network_storable, m, is, hm, his, tells m is hm his, Option.some.inj times⟩

/-! ## A haul too long -/

namespace Freight

theorem network_anchored : network.Anchored := by
  have points : network.points = ["gate", "haul_end", "haul_start", "origin"] := by decide +kernel
  have fixed : ∀ p k, (network.derived originPoint p).toOption = some ⟨.int k, .int k⟩ →
      ∃ b, network.derived originPoint p = .ok b ∧ ∃ k, b.lo = .int k :=
    fun p k h => ⟨_, toOption_eq_some_iff.mp h, k, rfl⟩
  simp only [Network.Anchored, points, List.forall_mem_cons]
  exact ⟨fixed "gate" leg (by decide +kernel),
    fixed "haul_end" (leg + leg + 1) (by decide +kernel),
    fixed "haul_start" (leg + leg) (by decide +kernel), fixed "origin" 0 (by decide +kernel),
    List.forall_mem_nil _⟩

/-- The network is consistent and every point has a finite derived lower number from the origin,
but the times of the haul are too large for propagation, and so no schedule is read. -/
theorem unread :
    network.Reachable ∧ network.isConsistent = .ok true ∧ network.Anchored ∧
      network.propagate = .error .tooLarge ∧
      ¬ ∃ m is, network.propagate = .ok m ∧ m.intervals = .ok is := by
  refine ⟨network_reachable, network_consistent, network_anchored, network_refused, ?_⟩
  rintro ⟨m, is, hm, -⟩
  rw [network_refused] at hm
  cases hm

end Freight

end Chronoplan
