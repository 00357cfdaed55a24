import Chronoplan.Proofs.Network.Propagation
import Chronoplan.Proofs.Network.Scales

/-!
# Finer scales

Where a scale is finer no number is rounded, and each is multiplied by the number of short ticks in
a long one. Multiplication keeps sums and smaller numbers, so it goes through the matrix and all
passes, with negative cycles or without. Every cell of the closure is that multiple of the cell it
was, and the diagonal is negative where it was.
-/

set_option autoImplicit false

namespace Chronoplan

/-! ### Multiples of distances -/

section Multiples

variable (k : ℕ)

theorem shortTicks_neg (m : ℤ) : shortTicks k (-m) = -shortTicks k m := by
  rw [shortTicks, shortTicks, neg_mul]

theorem map_shortTicks_add (a b : WithTop ℤ) :
    (a + b).map (shortTicks k) = a.map (shortTicks k) + b.map (shortTicks k) :=
  WithTop.map_add (AddMonoidHom.mulRight (k : ℤ)) a b

theorem map_shortTicks_min (a b : WithTop ℤ) :
    (min a b).map (shortTicks k) = min (a.map (shortTicks k)) (b.map (shortTicks k)) :=
  (WithTop.monotone_map_iff.mpr (shortTicks_mono k)).map_min

theorem map_shortTicks_neg_iff (hk : 0 < k) (a : WithTop ℤ) :
    a.map (shortTicks k) < 0 ↔ a < 0 := by
  cases a using WithTop.recTopCoe with
  | top => simp
  | coe m =>
    have positive : (0 : ℤ) < k := by exact_mod_cast hk
    rw [WithTop.map_coe, shortTicks, ← WithTop.coe_zero, WithTop.coe_lt_coe, WithTop.coe_lt_coe]
    exact ⟨fun h => neg_of_mul_neg_left h positive.le, fun h => mul_neg_of_neg_of_pos h positive⟩

theorem Number.ofDistance_map (f : ℤ → ℤ) (a : WithTop ℤ) :
    Number.ofDistance (a.map f) = (Number.ofDistance a).mapInt f := by
  cases a using WithTop.recTopCoe <;> rfl

theorem Bound.mapInt_ofDistances (back forth : WithTop ℤ) :
    (Bound.ofDistances back forth).mapInt (shortTicks k) =
      .ofDistances (back.map (shortTicks k)) (forth.map (shortTicks k)) := by
  have lower : (Number.ofDistance back).neg.mapInt (shortTicks k) =
      (Number.ofDistance (back.map (shortTicks k))).neg := by
    cases back using WithTop.recTopCoe with
    | top => rfl
    | coe m =>
      rw [WithTop.map_coe, Number.ofDistance_coe, Number.ofDistance_coe, Number.neg_int,
        Number.neg_int, Number.mapInt_int, shortTicks_neg]
  simp only [Bound.mapInt, Bound.ofDistances, lower, Number.ofDistance_map]

namespace Distances

/-- The distances in short ticks. -/
def short (D : Distances) : Distances := fun i j => (D i j).map (shortTicks k)

theorem pass_short (D : Distances) (l : ℕ) : (D.short k).pass l = (D.pass l).short k := by
  funext i j
  simp only [pass, short, map_shortTicks_min, map_shortTicks_add]

theorem stage_short (D : Distances) (l : ℕ) : (D.short k).stage l = (D.stage l).short k := by
  induction l with
  | zero => rfl
  | succ l ih => rw [stage, ih, pass_short, stage]

theorem start_short : start.short k = start := by
  funext i j
  unfold short start
  split_ifs
  · simp [shortTicks]
  · rfl

theorem lower_short (D : Distances) (i j : ℕ) (x : WithTop ℤ) :
    (D.short k).lower i j (x.map (shortTicks k)) = (D.lower i j x).short k := by
  funext a b
  simp only [lower, short]
  split_ifs
  · rw [map_shortTicks_min]
  · rfl

theorem enter_short (points : List String) (D : Distances) (e : (String × String) × Bound)
    (h : e.2.Integral) : (D.short k).enter points (e.1, e.2.mapInt (shortTicks k)) =
      (D.enter points e).short k := by
  obtain ⟨back, forth, hb⟩ := h
  unfold enter
  rw [hb, Bound.mapInt_ofDistances]
  cases Matrix.place? points e.1.1 with
  | none => rfl
  | some i =>
    cases Matrix.place? points e.1.2 with
    | none => rfl
    | some j =>
      simp only [Bound.ofDistances, Number.neg_neg_ofDistance, Number.toDistance_ofDistance,
        lower_short]

theorem ofConstraints_short (points : List String) (constraints : Constraints)
    (h : ∀ e ∈ constraints, e.2.Integral) :
    ofConstraints points (constraints.mapInt (shortTicks k)) =
      (ofConstraints points constraints).short k := by
  unfold ofConstraints Constraints.mapInt
  conv_lhs => rw [← start_short k]
  generalize start = D
  induction constraints generalizing D with
  | nil => rfl
  | cons e rest ih =>
    obtain ⟨he, h⟩ := List.forall_mem_cons.mp h
    rw [List.map_cons, List.foldl_cons, List.foldl_cons, enter_short k points D e he]
    exact ih h _

theorem table_short (n : ℕ) (D : Distances) :
    (D.short k).table n = (D.table n).map (List.map (Number.mapInt (shortTicks k))) := by
  simp [table, row, short, Number.ofDistance_map]

theorem negativePoints_short (hk : 0 < k) (points : List String) (D : Distances) :
    negativePoints points ((D.short k).table points.length) =
      negativePoints points (D.table points.length) := by
  simp only [negativePoints_table, short, map_shortTicks_neg_iff k hk]

end Distances

end Multiples

/-- A report with every number in short ticks: the same points, every cell and derived bound so many
times what it was, and the same points reported. -/
structure Report.Magnifies (k : ℕ) (r r' : Report) : Prop where
  points : r'.points = r.points
  closure : r'.closure = r.closure.map (List.map (Number.mapInt (shortTicks k)))
  derived : ∀ u ∈ r.points, ∀ v ∈ r.points, ∃ b, r.derived u v = .ok b ∧
    r'.derived u v = .ok (b.mapInt (shortTicks k))
  negative : r'.negative = r.negative

namespace Network

/-- The network with its bounds in short ticks. -/
def short (k : ℕ) (n : Network) : Network :=
  { n with constraints := n.constraints.mapInt (shortTicks k) }

variable {n : Network}

theorem distances_short (w : n.WellFormed) (k : ℕ) :
    (n.short k).distances = n.distances.short k :=
  Distances.ofConstraints_short k n.points n.constraints fun e he => (w e he).integral

theorem closed_short (w : n.WellFormed) (k : ℕ) : (n.short k).closed = n.closed.short k := by
  rw [closed, distances_short w, Distances.stage_short]
  rfl

theorem report_short (w : n.WellFormed) (k : ℕ) (hk : 0 < k) :
    n.report.Magnifies k (n.short k).report := by
  have closed := closed_short w k
  refine ⟨rfl, ?_, ?_, ?_⟩
  · show (n.short k).closed.table n.size = _
    rw [closed, Distances.table_short]
    rfl
  · intro u hu v hv
    refine ⟨_, n.report_derived u v hu hv, ?_⟩
    rw [(n.short k).report_derived u v hu hv, closed, Bound.mapInt_ofDistances]
    rfl
  · show negativePoints n.points ((n.short k).closed.table n.size) = _
    rw [closed]
    exact Distances.negativePoints_short k hk n.points n.closed

theorem short_fits (w : n.WellFormed) (k : ℕ) :
    ∀ e ∈ n.constraints.mapInt (shortTicks k), Fits n.points e := by
  intro e he
  obtain ⟨old, hold, rfl⟩ := List.mem_map.mp he
  have fits := w old hold
  exact ⟨fits.first, fits.second, fits.integral.mapInt _⟩

section Finer

variable (w : n.WellFormed) (s : Scale) (finer : s.length < (s.current n).length)
include finer

theorem ne_current_of_finer : s ≠ s.current n := by
  intro same
  rw [← same] at finer
  exact lt_irrefl _ finer

include w

/-- To a finer scale all bounds are multiplied, unless one of their integers is too large. -/
theorem scaleAll_finer : scaleAll ((s.current n).factor s) n.constraints =
    if ∀ e ∈ n.constraints, e.2.Small then
      .ok (n.constraints.mapInt (shortTicks (s.ratio (s.current n))))
    else .error .tooLarge := by
  rw [Scale.factor_to_fine (s.dvd_current n finer.le)]
  exact scaleAll_eq n.constraints (fun e he => (w e he).integral) _ _
    fun _ _ m _ => roundTicks_short _ m

/-- A finer scale is set exactly when no stored integer is too large to be scaled and no scaled one
to be checked. -/
theorem set_finer_eq_ok_iff (m : Network) :
    s.set n = .ok m ↔ (∀ e ∈ n.constraints, e.2.Small) ∧
      (n.short (s.ratio (s.current n))).Addable ∧
        m = { s.mark n (n.constraints.mapInt (shortTicks (s.ratio (s.current n)))) with
          consistent := (n.short (s.ratio (s.current n))).report.consistent } := by
  have apart := ne_current_of_finer s finer
  have scaled := scaleAll_finer w s finer
  by_cases small : ∀ e ∈ n.constraints, e.2.Small
  · rw [if_pos small] at scaled
    rw [s.set_eq_ok_iff n _ apart scaled (short_fits w _) m]
    exact (and_iff_right small).symm
  · rw [if_neg small] at scaled
    rw [s.set_eq n apart, scaled]
    exact iff_of_false (fun h => by cases h) fun h => small h.1

/-- Nothing but an integer that is too large keeps a finer scale from being set. -/
theorem set_finer_fault (e : Fault) (h : s.set n = .error e) : e = .tooLarge := by
  have apart := ne_current_of_finer s finer
  have scaled := scaleAll_finer w s finer
  by_cases small : ∀ e ∈ n.constraints, e.2.Small
  · exact s.set_fault n _ apart (scaled.trans (if_pos small)) (short_fits w _) e h
  · rw [s.set_eq n apart, scaled, if_neg small] at h
    exact (Except.error.inj h).symm

end Finer

end Network

/-! ## What a finer scale keeps -/

/-- A finer scale is set exactly when no integer is too large, and only one that is too large stops
it. The report is then that of the network in short ticks, and so is the flag. -/
theorem Network.set_finer (n : Network) (r : n.Reachable) (s : Scale)
    (finer : s.length < (s.current n).length) :
    ((∃ m, s.set n = .ok m) ↔ (∀ e ∈ n.constraints, e.2.Small) ∧
        (n.short (s.ratio (s.current n))).Addable) ∧
      (∀ e, s.set n = .error e → e = .tooLarge) ∧
      ∀ m, s.set n = .ok m → n.Addable → ∃ r r', n.check = .ok r ∧ m.check = .ok r' ∧
        r.Magnifies (s.ratio (s.current n)) r' ∧
        n.isConsistent = .ok m.consistent ∧ m.isConsistent = .ok m.consistent := by
  have w := r.wellFormed
  have sets := set_finer_eq_ok_iff w s finer
  have pos := Scale.ratio_pos (s.dvd_current n finer.le)
  refine ⟨?_, set_finer_fault w s finer, ?_⟩
  · simp [sets]
  · intro m hm ha
    obtain ⟨-, ha', rfl⟩ := (sets m).mp hm
    have magnifies := report_short w _ pos
    have same : (n.short (s.ratio (s.current n))).report.consistent = n.report.consistent := by
      rw [Report.consistent, magnifies.negative, Report.consistent]
    have w' : (n.short (s.ratio (s.current n))).WellFormed := short_fits w _
    have ends := (check_eq_ok_iff n w _).mpr ⟨ha, rfl⟩
    have ends' := (check_eq_ok_iff _ w' _).mpr ⟨ha', rfl⟩
    refine ⟨_, _, ends, ?_, magnifies, ?_, ?_⟩
    · cases s <;> exact ends'
    · exact (n.isConsistent_eq_ok_iff w _).mpr ⟨ha, same⟩
    · have flag := (isConsistent_eq_ok_iff _ w' _).mpr ⟨ha', rfl⟩
      cases s <;> exact flag

/-- A relay that nobody can run in time stays one in tenths of a second, for the same points. -/
theorem Relay.late_in_tenths :
    Relay.late.Reachable ∧
      (Scale.detail .high).length < ((Scale.detail .high).current Relay.late).length ∧
      ∃ m r r', Relay.late.setDetail .high = .ok m ∧ Relay.late.check = .ok r ∧
        m.check = .ok r' ∧ r.Magnifies 10 r' ∧ r'.negative = ["finish", "handover", "start"] ∧
        m.consistent = false := by
  have finer : (Scale.detail .high).length <
      ((Scale.detail .high).current Relay.late).length := by decide
  obtain ⟨addable, -⟩ := (Relay.late.isConsistent_eq_ok_iff Relay.late_reachable.wellFormed _).mp
    Relay.late_inconsistent
  have found : (Relay.late.setDetail .high).toOption.isSome = true := by decide +kernel
  obtain ⟨m, hm⟩ := Option.isSome_iff_exists.mp found
  have set := toOption_eq_some_iff.mp hm
  obtain ⟨r, r', hr, hr', magnifies, before, -⟩ := (Relay.late.set_finer Relay.late_reachable
    (.detail .high) finer).2.2 m set addable
  have listed := Relay.late_reported
  rw [hr] at listed
  rw [Relay.late_inconsistent] at before
  exact ⟨Relay.late_reachable, finer, m, r, r', set, hr, hr', magnifies,
    magnifies.negative.trans (Option.some.inj listed), (Except.ok.inj before).symm⟩

/-! ## A comet

Between two passages lies a time that an infinite number can be added to in days, but not in ticks
of a hundredth of a day. -/

namespace Comet

def period : ℤ := (3 * Nat.pow 2 1022 : ℕ)

def calendar : Network := Network.empty .day .medium false 4

def coarse : Network :=
  calendar.addBound "perihelion" "perihelion" ⟨.int (-period), .int period⟩

def fine : Network :=
  { coarse with
    constraints := [(("perihelion", "perihelion"), ⟨.int (-(period * 100)), .int (period * 100)⟩)]
    consistent := true
    detail := .ultraHigh }

theorem fine_reachable : fine.Reachable := by
  have accepted : Bound.ofValues (.int (-period)) (.int period) =
      .ok ⟨.int (-period), .int period⟩ := toOption_eq_some_iff.mp (by decide +kernel)
  have one : coarse.Reachable := .write calendar _
    (.bound "perihelion" "perihelion" (.int (-period)) (.int period)) (.empty .day .medium false 4)
    ⟨.ofInt (-period), .ofInt period⟩
    (by rw [Network.Write.apply, Network.addConstraint, accepted]; rfl)
  have scaled : Network.scaleAll (Detail.factor .medium .ultraHigh) coarse.constraints =
      .ok fine.constraints := toOption_eq_some_iff.mp (by decide +kernel)
  have refined : coarse.setDetail .ultraHigh = .ok fine := by
    rw [Network.setDetail, if_neg (by decide), show coarse.detail = .medium from rfl, scaled,
      ok_bind]
    exact Network.recheck_eq_ok_iff.mpr ⟨true, toOption_eq_some_iff.mp (by decide +kernel), rfl⟩
  exact .write _ _ (.detail .ultraHigh) one trivial refined

end Comet

/-- No cell of the matrix is large, and still the bounds cannot be scaled a second time. -/
theorem Comet.not_in_hours :
    Comet.fine.Reachable ∧ Comet.fine.Addable ∧
      Comet.fine.check.toOption.map Report.closure = some [[.int 0]] ∧
      (Scale.unit .hour).length < ((Scale.unit .hour).current Comet.fine).length ∧
      Comet.fine.setUnit .hour = .error .tooLarge := by
  have closed : Comet.fine.check.toOption.map Report.closure = some [[.int 0]] := by
    decide +kernel
  obtain ⟨r, hr, -⟩ := Option.map_eq_some_iff.mp closed
  have ends := toOption_eq_some_iff.mp hr
  exact ⟨Comet.fine_reachable,
    ((Network.check_eq_ok_iff _ Comet.fine_reachable.wellFormed r).mp ends).1, closed, by decide,
    stopsTooLarge_iff.mp (by decide +kernel)⟩

end Chronoplan
