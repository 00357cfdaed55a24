import Chronoplan.Network.Basic
import Chronoplan.Proofs.Network.Encoding
import Chronoplan.Proofs.Network.Orders

/-!
# The consistency check

On a well-formed network the check ends in a report exactly when no integer is too large for its
passes, and the report then holds the shortest distances. It calls the network consistent when no
point is at a negative distance from itself, and it derives a bound from the distances both ways.
-/

set_option autoImplicit false

namespace Chronoplan

/-- The integers that pass `k` over a matrix adds to an infinite number are small enough. -/
def Matrix.AddableAt (m : Matrix) (k : ℕ) : Prop :=
  ∀ i j x, m.cell? i k = some (.int x) → m.cell? k j = some .posInf → Addable x

/-- In no pass of the closure is an integer too large to be added to an infinite number. -/
def Matrix.Addable (m : Matrix) : Prop :=
  ∀ k < m.length, ∀ m', (List.range k).foldlM Matrix.pass m = .ok m' → m'.AddableAt k

theorem Distances.addableAt_table (n : ℕ) (D : Distances) (k : ℕ) (hk : k < n) :
    (D.table n).AddableAt k ↔ AddableAt n D k := by
  constructor
  · intro h i hi m hm j hj top
    apply h i j m
    · exact (cell?_table_eq_some_iff n D i k _).mpr ⟨hi, hk, by rw [hm, Number.ofDistance_coe]⟩
    · exact (cell?_table_eq_some_iff n D k j _).mpr ⟨hk, hj, by rw [top, Number.ofDistance_top]⟩
  · intro h i j m hm top
    obtain ⟨hi, -, cell⟩ := (cell?_table_eq_some_iff n D i k _).mp hm
    obtain ⟨-, hj, cell'⟩ := (cell?_table_eq_some_iff n D k j _).mp top
    exact h i hi m (Number.ofDistance_injective cell) j hj (Number.ofDistance_injective cell')

theorem Distances.addable_table (n : ℕ) (D : Distances) :
    (D.table n).Addable ↔ ∀ k < n, AddableAt n (D.stage k) k := by
  unfold Matrix.Addable
  rw [length_table]
  constructor
  · intro h k hk
    induction k using Nat.strong_induction_on with
    | h k ih =>
      apply (addableAt_table _ _ k hk).mp
      apply h k hk
      exact (passes_table _ _ k hk.le _).mpr ⟨fun l hl => ih l hl (hl.trans hk), rfl⟩
  · intro h k hk m hm
    obtain ⟨-, rfl⟩ := (passes_table _ _ k hk.le m).mp hm
    exact (addableAt_table _ _ k hk).mpr (h k hk)

theorem Distances.close_table (n : ℕ) (D : Distances) (m : Matrix) :
    (D.table n).close = .ok m ↔ (D.table n).Addable ∧ m = (D.stage n).table n := by
  rw [Matrix.close, length_table, passes_table _ _ _ (le_refl _), addable_table]

/-- The points at a negative distance from themselves, by their place in the list. -/
theorem negativePoints_table (points : List String) (D : Distances) :
    negativePoints points (D.table points.length) =
      (points.zipIdx.filter fun p => decide (D p.2 p.2 < 0)).map Prod.fst := by
  unfold negativePoints
  refine congrArg _ (List.filter_congr fun p hp => ?_)
  have hi : p.2 < points.length :=
    (List.getElem?_eq_some_iff.mp (List.mem_zipIdx_iff_getElem?.mp hp)).1
  have cell : (D.table points.length).cell? p.2 p.2 = some (.ofDistance (D p.2 p.2)) :=
    (D.cell?_table_eq_some_iff points.length p.2 p.2 _).mpr ⟨hi, hi, rfl⟩
  rw [cell]
  exact Number.lt_ofDistance (D p.2 p.2) 0

theorem mem_negativePoints_iff (points : List String) (D : Distances) (p : String) :
    p ∈ negativePoints points (D.table points.length) ↔
      ∃ i, points[i]? = some p ∧ D i i < 0 := by
  simp [negativePoints_table, List.mem_zipIdx_iff_getElem?]

theorem negativePoints_eq_nil_iff (points : List String) (D : Distances) :
    negativePoints points (D.table points.length) = [] ↔ ∀ i < points.length, 0 ≤ D i i := by
  simp only [List.eq_nil_iff_forall_not_mem, mem_negativePoints_iff, not_exists, not_and, not_lt]
  constructor
  · intro h i hi
    exact h _ i (List.getElem?_eq_getElem hi)
  · intro h p i hp
    exact h i (List.getElem?_eq_some_iff.mp hp).1

theorem checkConsistency_eq (points : List String) (constraints : Constraints) (parallel : Bool)
    (workers : Int) : checkConsistency points constraints parallel workers =
      (Matrix.build points constraints).close >>= fun closure =>
        .ok { points, closure, negative := negativePoints points closure } := by
  unfold checkConsistency
  simp only [Matrix.closeInGroups_eq_close]
  cases parallel <;> rfl

/-- The report of a check that meets no integer that is too large. -/
def Report.closing (points : List String) (constraints : Constraints) : Report :=
  let closure := ((Distances.ofConstraints points constraints).stage points.length).table
    points.length
  { points, closure, negative := negativePoints points closure }

/-- Of integers, or numbers infinite on their own side, the check closes the distances. It ends
exactly when no integer is too large for the passes. -/
theorem checkConsistency_eq_ok_iff (points : List String) (constraints : Constraints)
    (h : ∀ e ∈ constraints, e.2.Integral) (parallel : Bool) (workers : Int) (r : Report) :
    checkConsistency points constraints parallel workers = .ok r ↔
      (Matrix.build points constraints).Addable ∧ r = .closing points constraints := by
  rw [checkConsistency_eq, Distances.build_eq_table points constraints h, bind_eq_ok_iff]
  simp only [Distances.close_table]
  constructor
  · rintro ⟨m, ⟨ha, rfl⟩, hr⟩
    exact ⟨ha, (Except.ok.inj hr).symm⟩
  · rintro ⟨ha, rfl⟩
    exact ⟨_, ⟨ha, rfl⟩, rfl⟩

/-- A bound is derived between known points only. -/
theorem Report.mem_of_derived (r : Report) (u v : String) (b : Bound) (h : r.derived u v = .ok b) :
    u ∈ r.points ∧ v ∈ r.points := by
  obtain ⟨i, hi, h⟩ := (bind_eq_ok_iff _ _ _).mp h
  obtain ⟨j, hj, -⟩ := (bind_eq_ok_iff _ _ _).mp h
  exact ⟨mem_of_place? r.points u i ((orFault_eq_ok_iff _ _ _).mp hi),
    mem_of_place? r.points v j ((orFault_eq_ok_iff _ _ _).mp hj)⟩

/-- A constraint between known points, whose numbers are integers or infinite on their own side. -/
structure Fits (points : List String) (e : (String × String) × Bound) : Prop where
  first : e.1.1 ∈ points
  second : e.1.2 ∈ points
  integral : e.2.Integral

namespace Network

def WellFormed (n : Network) : Prop := ∀ e ∈ n.constraints, Fits n.points e

/-- In no pass of the check is an integer too large to be added to an infinite number. -/
def Addable (n : Network) : Prop :=
  ∀ k < n.size, ∀ m,
    (List.range k).foldlM Matrix.pass (Matrix.build n.points n.constraints) = .ok m →
      m.AddableAt k

def distances (n : Network) : Distances := Distances.ofConstraints n.points n.constraints

def closed (n : Network) : Distances := n.distances.stage n.size

theorem build_eq_table (n : Network) (w : n.WellFormed) :
    Matrix.build n.points n.constraints = n.distances.table n.size :=
  Distances.build_eq_table n.points n.constraints fun e he => (w e he).integral

theorem addable_iff_build (n : Network) (w : n.WellFormed) :
    n.Addable ↔ (Matrix.build n.points n.constraints).Addable := by
  rw [Addable, n.build_eq_table w, Matrix.Addable, Distances.length_table]

theorem addable_iff (n : Network) (w : n.WellFormed) :
    n.Addable ↔ ∀ k < n.size, Distances.AddableAt n.size (n.distances.stage k) k := by
  rw [n.addable_iff_build w, n.build_eq_table w, Distances.addable_table]

section Small

variable (n : Network) (w : n.WellFormed) (size : ℕ)
  (small : ∀ e ∈ n.constraints, ∀ m : ℤ, e.2.lo = .int m ∨ e.2.hi = .int m → m.natAbs ≤ size)
  (hsize : 2 ^ n.size * size ≤ Nat.pow 2 1023)
include w small hsize

theorem stage_addable_of_small (k : ℕ) (hk : k ≤ n.size) (i j : ℕ) (m : ℤ)
    (hm : n.distances.stage k i j = m) : Chronoplan.Addable m := by
  apply addable_of_natAbs_le
  have start := Distances.within_ofConstraints size n.points n.constraints
    (fun e he => (w e he).integral) small
  calc m.natAbs
      ≤ 2 ^ k * size := Distances.within_stage size _ start k i j m hm
    _ ≤ 2 ^ n.size * size := Nat.mul_le_mul_right size (Nat.pow_le_pow_right (by decide) hk)
    _ ≤ Nat.pow 2 1023 := hsize

/-- Integers are small enough if they leave one bit to every pass. -/
theorem addable_of_small : n.Addable := by
  rw [n.addable_iff w]
  intro k hk i _ m hm _ _ _
  exact n.stage_addable_of_small w size small hsize k hk.le i k m hm

end Small

/-- The report of a check that meets no integer that is too large. -/
def report (n : Network) : Report :=
  { points := n.points
    closure := n.closed.table n.size
    negative := negativePoints n.points (n.closed.table n.size) }

theorem check_eq_ok_iff (n : Network) (w : n.WellFormed) (r : Report) :
    n.check = .ok r ↔ n.Addable ∧ r = n.report := by
  rw [n.addable_iff_build w]
  exact checkConsistency_eq_ok_iff n.points n.constraints (fun e he => (w e he).integral)
    n.parallel n.workers r

/-- The check can only stop at an integer that is too large. -/
theorem check_fault (n : Network) (w : n.WellFormed) (e : Fault) (h : n.check = .error e) :
    e = .tooLarge := by
  rw [check, checkConsistency_eq, n.build_eq_table w] at h
  cases hclose : (n.distances.table n.size).close with
  | ok m =>
    rw [hclose] at h
    cases h
  | error e' =>
    rw [hclose] at h
    cases h
    refine Matrix.close_fault _ ?_ e hclose
    intro row hrow
    obtain ⟨i, -, rfl⟩ := List.mem_map.mp hrow
    simp [Distances.row]

/-- A check that does not end has met an integer that is too large. -/
theorem isConsistent_fault (n : Network) (w : n.WellFormed) (large : ¬ n.Addable) :
    n.isConsistent = .error .tooLarge := by
  cases hcheck : n.check with
  | ok r => exact absurd ((n.check_eq_ok_iff w r).mp hcheck).1 large
  | error e =>
    rw [isConsistent, hcheck, n.check_fault w e hcheck]
    rfl

theorem report_consistent (n : Network) :
    n.report.consistent = true ↔ ∀ i < n.size, 0 ≤ n.closed i i := by
  unfold Report.consistent report
  rw [List.isEmpty_iff]
  exact negativePoints_eq_nil_iff n.points n.closed

theorem report_derived (n : Network) (u v : String) (hu : u ∈ n.points) (hv : v ∈ n.points) :
    n.report.derived u v = .ok (.ofDistances (n.closed (placeIn n.points v) (placeIn n.points u))
      (n.closed (placeIn n.points u) (placeIn n.points v))) := by
  have pu := placeIn_lt n.points u hu
  have pv := placeIn_lt n.points v hv
  unfold Report.derived report
  simp only [(place?_of_mem n.points u hu).1, (place?_of_mem n.points v hv).1, orFault, ok_bind,
    (Distances.cell?_table_eq_some_iff n.size n.closed _ _ _).mpr ⟨pu, pv, rfl⟩,
    (Distances.cell?_table_eq_some_iff n.size n.closed _ _ _).mpr ⟨pv, pu, rfl⟩]
  rfl

end Network
end Chronoplan
