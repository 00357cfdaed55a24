import Chronoplan.Proofs.Network.Propagation

/-!
# Narrowing

A bound that is added between known points raises no cell of the distance matrix, and every pass
keeps the order of two matrices cell by cell, whatever their diagonals are. So no cell of the
closure is raised, no derived bound widens and every point that was reported still is. Where points
are added the matrices do not compare. There the solutions do: whatever is added, those of the
larger network solve the smaller one too.
-/

set_option autoImplicit false

namespace Chronoplan

namespace Distances

/-! ### The order of distances -/

theorem pass_mono (k : ℕ) : Monotone fun D : Distances => D.pass k := by
  intro D E h i j
  exact min_le_min (h i j) (add_le_add (h i k) (h k j))

theorem stage_mono (k : ℕ) : Monotone fun D : Distances => D.stage k := by
  induction k with
  | zero => exact monotone_id
  | succ k ih => exact (pass_mono k).comp ih

/-- The distances are at most what a constraint asks for, if its points are known. -/
def Obeys (points : List String) (D : Distances) (e : (String × String) × Bound) : Prop :=
  ∀ i j, Matrix.place? points e.1.1 = some i → Matrix.place? points e.1.2 = some j →
    D i j ≤ e.2.hi.toDistance ∧ D j i ≤ e.2.lo.neg.toDistance

theorem obeys_meet (points : List String) (D : Distances) (key : String × String) (a b : Bound)
    (ha : a.Integral) (hb : b.Integral) :
    D.Obeys points (key, a.meet b) ↔ D.Obeys points (key, a) ∧ D.Obeys points (key, b) := by
  obtain ⟨back, forth, rfl⟩ := ha
  obtain ⟨back', forth', rfl⟩ := hb
  rw [Bound.meet_ofDistances]
  simp only [Obeys, Bound.ofDistances, Number.neg_neg_ofDistance, Number.toDistance_ofDistance,
    le_min_iff]
  constructor
  · intro h
    exact ⟨fun i j hi hj => ⟨(h i j hi hj).1.1, (h i j hi hj).2.1⟩,
      fun i j hi hj => ⟨(h i j hi hj).1.2, (h i j hi hj).2.2⟩⟩
  · rintro ⟨first, second⟩ i j hi hj
    exact ⟨⟨(first i j hi hj).1, (second i j hi hj).1⟩, (first i j hi hj).2, (second i j hi hj).2⟩

/-- Distances stand below those of the constraints of which all are obeyed. -/
theorem ofConstraints_anti (points : List String) (constraints further : Constraints)
    (h : ∀ e ∈ constraints, (ofConstraints points further).Obeys points e) :
    ofConstraints points further ≤ ofConstraints points constraints :=
  le_ofConstraints points constraints _ (foldl_enter_le points further start) h

theorem forall₂_table {D E : Distances} (h : D ≤ E) (n : ℕ) :
    List.Forall₂ (List.Forall₂ fun x y => x.le y = true) (D.table n) (E.table n) := by
  simp only [table, row, List.forall₂_map_left_iff, List.forall₂_map_right_iff, List.forall₂_same,
    Number.le_ofDistance, decide_eq_true_eq]
  exact fun i _ j _ => h i j

theorem negativePoints_anti (points : List String) {D E : Distances} (h : D ≤ E) :
    (negativePoints points (E.table points.length)).Sublist
      (negativePoints points (D.table points.length)) := by
  simp only [negativePoints_table]
  refine (List.monotone_filter_right points.zipIdx ?_).map Prod.fst
  intro p below
  rw [decide_eq_true_eq] at *
  exact (h p.2 p.2).trans_lt below

end Distances

/-- Of two reports on the same points the first has every cell at most as large, every derived bound
at most as wide, and all reported points of the second. -/
structure Report.Narrows (r' r : Report) : Prop where
  points : r'.points = r.points
  cells : List.Forall₂ (List.Forall₂ fun x y => x.le y = true) r'.closure r.closure
  derived : ∀ u v b, r.derived u v = .ok b →
    ∃ b', r'.derived u v = .ok b' ∧ b.lo.le b'.lo = true ∧ b'.hi.le b.hi = true
  negative : r.negative.Sublist r'.negative

namespace Network

variable {n m : Network}

/-! ### A bound between known points -/

theorem report_narrows (points : m.points = n.points) (h : m.distances ≤ n.distances) :
    m.report.Narrows n.report := by
  have size : m.size = n.size := congrArg List.length points
  have closed : m.closed ≤ n.closed := by
    rw [Network.closed, Network.closed, size]
    exact Distances.stage_mono n.size h
  refine ⟨points, ?_, ?_, ?_⟩
  · rw [report, report, size]
    exact Distances.forall₂_table closed n.size
  · intro u v b hb
    obtain ⟨hu, hv⟩ := n.report.mem_of_derived u v b hb
    rw [n.report_derived u v hu hv] at hb
    cases hb
    refine ⟨_, m.report_derived u v (points ▸ hu) (points ▸ hv), ?_, ?_⟩
    · rw [points, Bound.ofDistances, Bound.ofDistances, Bound.le_neg_neg, decide_eq_true_eq]
      exact closed _ _
    · rw [points, Bound.ofDistances, Bound.ofDistances, Number.le_ofDistance, decide_eq_true_eq]
      exact closed _ _
  · rw [report, report, size, points]
    exact Distances.negativePoints_anti n.points closed

theorem insertPoint_of_mem (p : String) (points : List String) (sorted : points.Pairwise (· < ·))
    (h : p ∈ points) : insertPoint p points = points := by
  induction points with
  | nil => cases h
  | cons q rest ih =>
    obtain ⟨below, sorted⟩ := List.pairwise_cons.mp sorted
    unfold insertPoint
    rcases List.mem_cons.mp h with rfl | later
    · rw [if_pos rfl]
    · have more := below p later
      rw [if_neg more.ne', if_neg more.not_gt, ih sorted later]

theorem addBound_points (sorted : n.Sorted) (a b : String) (bound : Bound) (ha : a ∈ n.points)
    (hb : b ∈ n.points) : (n.addBound a b bound).points = n.points := by
  have first : insertPoint a n.points = n.points := insertPoint_of_mem a n.points sorted ha
  rw [addBound, first]
  exact insertPoint_of_mem b n.points sorted hb

/-- Whatever obeys the constraints after a bound was added obeys those before. -/
theorem obeys_of_addBound (w : n.WellFormed) (a b : String) (bound : Bound)
    (integral : bound.Integral) (points : List String) (D : Distances)
    (h : ∀ e ∈ (n.addBound a b bound).constraints, D.Obeys points e) :
    ∀ e ∈ n.constraints, D.Obeys points e := by
  have first := ((forall_narrow_iff (D.Obeys points) (b, a) bound.negate
    (n.constraints.narrow (a, b) bound).1 fun old hold =>
      Distances.obeys_meet points D (b, a) old bound.negate
        (n.narrowed_integral w (a, b) bound integral _ hold) (integral.negate bound)).mp h).1
  exact ((forall_narrow_iff (D.Obeys points) (a, b) bound n.constraints fun old hold =>
    Distances.obeys_meet points D (a, b) old bound (w _ hold).integral integral).mp first).1

theorem addBound_distances_le (w : n.WellFormed) (sorted : n.Sorted) (a b : String) (bound : Bound)
    (integral : bound.Integral) (ha : a ∈ n.points) (hb : b ∈ n.points) :
    (n.addBound a b bound).distances ≤ n.distances := by
  rw [distances, addBound_points sorted a b bound ha hb]
  refine Distances.ofConstraints_anti n.points n.constraints _ ?_
  refine obeys_of_addBound w a b bound integral n.points _ fun e he i j hi hj => ?_
  exact Distances.ofConstraints_le n.points _ e he i j hi hj

/-! ### Additions -/

theorem Addition.solves (w : n.WellFormed) (step : Addition n m) (t : String → ℤ)
    (h : m.Solves t) : n.Solves t := by
  cases step with
  | point p => exact h
  | bound a b bound integral => exact ((n.solves_addBound w a b bound integral t).mp h).1
  | metadata id data => exact h

theorem Additions.solves (w : n.WellFormed) (steps : Additions n m) :
    m.WellFormed ∧ ∀ t, m.Solves t → n.Solves t := by
  induction steps with
  | refl => exact ⟨w, fun _ h => h⟩
  | tail _ step before =>
    exact ⟨step.change.wellFormed before.1,
      fun t h => before.2 t (step.solves before.1 t h)⟩

/-- Writes that take nothing away. -/
def Write.Adds : Write → Prop
  | .point _ | .bound .. | .bounds _ | .interval _ | .metadata .. => True
  | _ => False

theorem Write.apply_additions (a : Write) (adds : a.Adds) (ha : a.Integral)
    (h : a.apply n = .ok m) : Additions n m := by
  cases a with
  | point p =>
    cases h
    exact .single (.point p)
  | bound a b lo hi => exact .single (addConstraint_addition a b lo hi ha.1 ha.2 h)
  | bounds entries => exact addConstraints_additions entries ha h
  | interval spec => exact addInterval_additions spec ha h
  | metadata id data =>
    cases h
    exact .single (.metadata id data)
  | remove a b => exact adds.elim
  | propagate => exact adds.elim
  | detail level => exact adds.elim
  | unit u => exact adds.elim

/-- The network after several writes, unless one of them is refused. -/
def applyAll (n : Network) (writes : List Write) : Except Fault Network :=
  writes.foldlM (fun n a => a.apply n) n

theorem applyAll_additions (writes : List Write) (h : ∀ a ∈ writes, a.Adds ∧ a.Integral)
    (hm : n.applyAll writes = .ok m) : Additions n m :=
  foldlM_preserves (Additions n) _ writes n m
    (fun _ a ha _ before happly =>
      before.trans (a.apply_additions (h a ha).1 (h a ha).2 happly)) .refl hm

/-- No addition brings back a solution. -/
theorem Additions.conflict (w : n.WellFormed) (steps : Additions n m)
    (conflict : n.isConsistent = .ok false) (b : Bool) (h : m.isConsistent = .ok b) :
    b = false := by
  obtain ⟨w', solves⟩ := steps.solves w
  cases b with
  | false => rfl
  | true =>
    obtain ⟨t, ht⟩ := ((m.isConsistent_true_iff w').mp h).2
    obtain ⟨ha, none⟩ := (n.isConsistent_eq_ok_iff w false).mp conflict
    have found := ((n.isConsistent_true_iff w).mpr ⟨ha, t, solves t ht⟩).symm.trans conflict
    exact Except.ok.inj found

end Network

/-! ## After a late relay

A ceremony is planned for a relay whose legs take longer than they may. -/

namespace Relay

def ceremony : List Network.Write :=
  [.point "podium", .bound "finish" "podium" (.int 0) (.int 60),
    .bounds [("start", "finish", .int 1, .int 90), ("podium", "start", .int (-500), .int 0)],
    .interval ⟨"anthem", .int 4, .int 100, .null, .null⟩]

theorem ceremony_adds : ∀ a ∈ ceremony, a.Adds ∧ a.Integral := by
  have entries : ∀ e ∈ [("start", "finish", Value.int 1, Value.int 90),
      ("podium", "start", Value.int (-500), Value.int 0)],
      e.2.2.1.Integral ∧ e.2.2.2.Integral := by
    simp only [List.forall_mem_cons, List.not_mem_nil, false_implies, implies_true, and_true]
    exact ⟨⟨.ofInt 1, .ofInt 90⟩, .ofInt (-500), .ofInt 0⟩
  have anthem : IntervalSpec.Integral ⟨"anthem", .int 4, .int 100, .null, .null⟩ :=
    ⟨.ofInt 4, fun _ h => (by cases h), .ofInt 100, fun _ h => by cases h⟩
  simp only [ceremony, List.forall_mem_cons, List.not_mem_nil, false_implies, implies_true,
    and_true]
  exact ⟨⟨trivial, trivial⟩, ⟨trivial, .ofInt 0, .ofInt 60⟩, ⟨trivial, entries⟩, trivial, anthem⟩

end Relay

/-! ## What additions keep -/

/-- A bound that is accepted between two points of a reachable network only narrows what its check
reports. Once the check finds a conflict, no writes of points, bounds and intervals end it. -/
theorem Network.addConstraint_narrows (n : Network) (r : n.Reachable) :
    (∀ u ∈ n.points, ∀ v ∈ n.points, ∀ lo hi b, lo.Integral → hi.Integral →
      Bound.ofValues? lo hi = .ok (some b) → ∃ m, n.addConstraint u v lo hi = .ok m ∧
        (n.Addable → m.Addable →
          ∃ r r', n.check = .ok r ∧ m.check = .ok r' ∧ r'.Narrows r)) ∧
      (n.isConsistent = .ok false → ∀ writes, (∀ a ∈ writes, a.Adds ∧ a.Integral) →
        ∀ m, n.applyAll writes = .ok m →
          m.isConsistent ≠ .ok true ∧ (m.Addable → m.isConsistent = .ok false)) := by
  have w := r.wellFormed
  constructor
  · intro u hu v hv lo hi b hlo hhi valid
    have accepted : Bound.ofValues lo hi = .ok b := by
      rw [Bound.ofValues, valid]
      rfl
    have integral := ofValues_integral lo hi b hlo hhi accepted
    refine ⟨n.addBound u v b, by rw [addConstraint, accepted]; rfl, fun ha ha' => ?_⟩
    have w' := addBound_wellFormed w u v b integral
    exact ⟨_, _, (check_eq_ok_iff n w _).mpr ⟨ha, rfl⟩, (check_eq_ok_iff _ w' _).mpr ⟨ha', rfl⟩,
      report_narrows (addBound_points r.sorted u v b hu hv)
        (addBound_distances_le w r.sorted u v b integral hu hv)⟩
  · intro conflict writes adds m hm
    have steps := applyAll_additions writes adds hm
    have stays := steps.conflict w conflict
    constructor
    · intro found
      cases stays true found
    · intro ha
      have ends := (m.isConsistent_eq_ok_iff (steps.solves w).1 _).mpr ⟨ha, rfl⟩
      rwa [stays _ ends] at ends

/-- In twelve minutes nobody can run both legs, whatever follows on the podium. -/
theorem Relay.shortened :
    Relay.network.Reachable ∧ "start" ∈ Relay.network.points ∧ "finish" ∈ Relay.network.points ∧
      Bound.ofValues? (.int 0) (.int 12) = .ok (some ⟨.int 0, .int 12⟩) ∧
      (∃ r r', Relay.network.check = .ok r ∧ Relay.late.check = .ok r' ∧ r'.Narrows r ∧
        r.negative = [] ∧ r'.negative = ["finish", "handover", "start"]) ∧
      Relay.late.Reachable ∧ Relay.late.isConsistent = .ok false ∧
      ∃ m, Relay.late.applyAll Relay.ceremony = .ok m ∧ m.isConsistent ≠ .ok true := by
  have start : "start" ∈ Relay.network.points := by decide
  have finish : "finish" ∈ Relay.network.points := by decide
  have valid : Bound.ofValues? (.int 0) (.int 12) = .ok (some ⟨.int 0, .int 12⟩) := rfl
  have possible := (Relay.network.isConsistent_eq_ok_iff Relay.network_reachable.wellFormed true).mp
    Relay.network_consistent
  have impossible := (Relay.late.isConsistent_eq_ok_iff Relay.late_reachable.wellFormed false).mp
    Relay.late_inconsistent
  obtain ⟨m, hm, narrows⟩ := (Relay.network.addConstraint_narrows Relay.network_reachable).1
    "start" start "finish" finish (.int 0) (.int 12) _ (.ofInt 0) (.ofInt 12) valid
  obtain rfl : Relay.late = m := Except.ok.inj hm
  obtain ⟨r, r', hr, hr', narrow⟩ := narrows possible.1 impossible.1
  have before : Relay.network.check.toOption.map Report.negative = some [] := by decide +kernel
  have after := Relay.late_reported
  rw [hr] at before
  rw [hr'] at after
  obtain ⟨m, hm⟩ : ∃ m, Relay.late.applyAll Relay.ceremony = .ok m := ⟨_, rfl⟩
  have stays := (Relay.late.addConstraint_narrows Relay.late_reachable).2 Relay.late_inconsistent
    Relay.ceremony Relay.ceremony_adds m hm
  exact ⟨Relay.network_reachable, start, finish, valid,
    ⟨r, r', hr, hr', narrow, Option.some.inj before, Option.some.inj after⟩, Relay.late_reachable,
    Relay.late_inconsistent, m, hm, stays.1⟩

end Chronoplan
