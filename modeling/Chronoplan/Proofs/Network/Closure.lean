import Chronoplan.Proofs.Network.Distances
import Chronoplan.Proofs.Network.Grouping
import Chronoplan.Proofs.Network.Integral

/-!
# The closure on matrices

A matrix of integers and infinite numbers is the table of distances, and the passes over it are
those on distances. A pass goes through exactly when every integer that it adds to an infinite
number is small enough.
-/

set_option autoImplicit false

namespace Chronoplan
namespace Distances

/-- The cells from one point to the first `n` points. -/
def row (n : ℕ) (D : Distances) (i : ℕ) : List Number :=
  (List.range n).map fun j => Number.ofDistance (D i j)

/-- The cells between the first `n` points. -/
def table (n : ℕ) (D : Distances) : Matrix := (List.range n).map (row n D)

/-- The integers that pass `k` adds to an infinite number are small enough. -/
def AddableAt (n : ℕ) (D : Distances) (k : ℕ) : Prop :=
  ∀ i < n, ∀ m : ℤ, D i k = m → ∀ j < n, D k j = ⊤ → Addable m

@[simp] theorem length_table (n : ℕ) (D : Distances) : (D.table n).length = n := by
  simp [table]

theorem getElem?_table (n : ℕ) (D : Distances) (i : ℕ) (hi : i < n) :
    (D.table n)[i]? = some (row n D i) := by
  simp [table, hi]

theorem getElem?_row (n : ℕ) (D : Distances) (i j : ℕ) (hj : j < n) :
    (row n D i)[j]? = some (Number.ofDistance (D i j)) := by
  simp [row, hj]

theorem cell?_table_eq_some_iff (n : ℕ) (D : Distances) (i j : ℕ) (x : Number) :
    (D.table n).cell? i j = some x ↔ i < n ∧ j < n ∧ Number.ofDistance (D i j) = x := by
  unfold Matrix.cell?
  by_cases hi : i < n
  · by_cases hj : j < n
    · rw [getElem?_table n D i hi, Option.bind_eq_bind, Option.bind_some, getElem?_row n D i j hj]
      simp [hi, hj]
    · simp [table, row, hi, hj]
  · simp [table, hi]

theorem relaxCells_map (m : ℤ) (js : List ℕ) (f g : ℕ → WithTop ℤ) (cells : List Number) :
    Matrix.relaxCells (.int m) (js.map fun j => Number.ofDistance (f j))
        (js.map fun j => Number.ofDistance (g j)) = .ok cells ↔
      (∀ j ∈ js, f j = ⊤ → Addable m) ∧
        cells = js.map fun j => Number.ofDistance (min (g j) (m + f j)) := by
  induction js generalizing cells with
  | nil => simp [Matrix.relaxCells, eq_comm]
  | cons j js ih =>
    simp only [List.map_cons, Matrix.relaxCells, bind_eq_ok_iff, addNumbers_eq_ok_iff, ih,
      pure_eq_ok, Except.ok.injEq]
    constructor
    · rintro ⟨_, ⟨hj, rfl⟩, _, ⟨hjs, rfl⟩, rfl⟩
      constructor
      · exact List.forall_mem_cons.mpr ⟨hj, hjs⟩
      · rw [Number.lt_ofDistance, ite_lt_eq_min]
    · rintro ⟨hall, rfl⟩
      obtain ⟨hj, hjs⟩ := List.forall_mem_cons.mp hall
      refine ⟨_, ⟨hj, rfl⟩, _, ⟨hjs, rfl⟩, ?_⟩
      rw [Number.lt_ofDistance, ite_lt_eq_min]

theorem relaxRow_row (n : ℕ) (D : Distances) (k i : ℕ) (hk : k < n) (cells : List Number) :
    Matrix.relaxRow k (row n D k) (row n D i) = .ok cells ↔
      (∀ m : ℤ, D i k = m → ∀ j < n, D k j = ⊤ → Addable m) ∧ cells = row n (D.pass k) i := by
  unfold Matrix.relaxRow
  rw [getElem?_row n D i k hk]
  simp only [orFault, ok_bind, Number.eq_posInf_ofDistance, decide_eq_true_eq]
  cases hik : D i k using WithTop.recTopCoe with
  | top => simp [row, pass, hik, eq_comm]
  | coe m =>
    rw [if_neg (by simp), Number.ofDistance_coe, row, row, relaxCells_map]
    simp [row, pass, hik]

theorem pass_table (n : ℕ) (D : Distances) (k : ℕ) (hk : k < n) (m : Matrix) :
    (D.table n).pass k = .ok m ↔ AddableAt n D k ∧ m = (D.pass k).table n := by
  rw [Matrix.pass_eq, getElem?_table n D k hk]
  simp only [orFault, ok_bind]
  rw [table, mapM_map_eq_ok_iff (List.range n) (row n D) (Matrix.relaxRow k (row n D k)) _ _
    fun i _ cells => relaxRow_row n D k i hk cells]
  simp [AddableAt, table]

/-- The passes through the points below `k` go through while the integers are small enough. -/
theorem passes_table (n : ℕ) (D : Distances) (k : ℕ) (hk : k ≤ n) (m : Matrix) :
    (List.range k).foldlM Matrix.pass (D.table n) = .ok m ↔
      (∀ l < k, AddableAt n (D.stage l) l) ∧ m = (D.stage k).table n := by
  induction k generalizing m with
  | zero => simp [stage, eq_comm]
  | succ k ih =>
    rw [List.range_succ, List.foldlM_append, bind_eq_ok_iff]
    simp only [ih (by omega), List.foldlM_cons, List.foldlM_nil, bind_pure]
    constructor
    · rintro ⟨_, ⟨before, rfl⟩, hpass⟩
      obtain ⟨now, rfl⟩ := (pass_table n _ k (by omega) m).mp hpass
      constructor
      · intro l hl
        rcases Nat.lt_succ_iff_lt_or_eq.mp hl with hlt | rfl
        · exact before l hlt
        · exact now
      · rfl
    · rintro ⟨all, rfl⟩
      refine ⟨_, ⟨fun l hl => all l (by omega), rfl⟩, ?_⟩
      exact (pass_table n _ k (by omega) _).mpr ⟨all k (by omega), rfl⟩

end Distances
end Chronoplan
