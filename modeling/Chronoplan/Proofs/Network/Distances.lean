import Mathlib

/-!
# Shortest distances

The passes of the closure on exact distances, integers or without limit. Passes never exclude a
solution. When the diagonal is not negative at the end it never was, and then every stage obeys
the triangle inequality through the points that were passed. From the last stage solutions are
read off as the least sum of an offset and a distance.
-/

set_option autoImplicit false

namespace Chronoplan

/-- Upper bounds on the time from one numbered point to another. -/
abbrev Distances := ℕ → ℕ → WithTop ℤ

namespace Distances

/-- The times of `n` points are as far apart as the distances allow. -/
def Meets (n : ℕ) (t : ℕ → ℤ) (D : Distances) : Prop :=
  ∀ i < n, ∀ j < n, ((t j - t i : ℤ) : WithTop ℤ) ≤ D i j

def pass (D : Distances) (k : ℕ) : Distances := fun i j => min (D i j) (D i k + D k j)

/-- The distances after the passes through the points below a number. -/
def stage (D : Distances) : ℕ → Distances
  | 0 => D
  | k + 1 => (stage D k).pass k

theorem pass_le (D : Distances) (k i j : ℕ) : D.pass k i j ≤ D i j := min_le_left _ _

theorem pass_le_add (D : Distances) (k i j : ℕ) : D.pass k i j ≤ D i k + D k j :=
  min_le_right _ _

theorem stage_anti (D : Distances) (i j : ℕ) {k l : ℕ} (h : k ≤ l) :
    D.stage l i j ≤ D.stage k i j := by
  induction l, h using Nat.le_induction with
  | base => exact le_refl _
  | succ l _ ih => exact (pass_le _ l i j).trans ih

theorem meets_pass (n : ℕ) (t : ℕ → ℤ) (D : Distances) (k : ℕ) (hk : k < n) :
    Meets n t (D.pass k) ↔ Meets n t D := by
  constructor
  · intro h i hi j hj
    exact (h i hi j hj).trans (pass_le D k i j)
  · intro h i hi j hj
    have detour : ((t j - t i : ℤ) : WithTop ℤ)
        = ((t k - t i : ℤ) : WithTop ℤ) + ((t j - t k : ℤ) : WithTop ℤ) := by
      rw [← WithTop.coe_add]
      congr 1
      omega
    apply le_min (h i hi j hj)
    rw [detour]
    exact add_le_add (h i hi k hk) (h k hk j hj)

theorem meets_stage (n : ℕ) (t : ℕ → ℤ) (D : Distances) (k : ℕ) (hk : k ≤ n) :
    Meets n t (D.stage k) ↔ Meets n t D := by
  induction k with
  | zero => exact Iff.rfl
  | succ k ih =>
    rw [stage, meets_pass n t _ k (by omega)]
    exact ih (by omega)

theorem diagonal_of_meets (n : ℕ) (t : ℕ → ℤ) (D : Distances) (h : Meets n t D) (i : ℕ)
    (hi : i < n) : 0 ≤ D i i := by
  have hii := h i hi i hi
  rwa [sub_self] at hii

/-- No detour through one of the first `k` points is shorter. -/
def Closed (k : ℕ) (D : Distances) : Prop := ∀ m < k, ∀ i j, D i j ≤ D i m + D m j

theorem closed_pass (D : Distances) (k : ℕ) (h : Closed k D) (hk : 0 ≤ D k k) :
    Closed (k + 1) (D.pass k) := by
  have column : ∀ i, D.pass k i k = D i k := by
    intro i
    exact min_eq_left (le_add_of_nonneg_right hk)
  have row : ∀ j, D.pass k k j = D k j := by
    intro j
    exact min_eq_left (le_add_of_nonneg_left hk)
  intro m hm i j
  rcases Nat.lt_succ_iff_lt_or_eq.mp hm with hlt | rfl
  · -- each of the two distances is the old one or goes through `k`
    rcases min_choice (D i m) (D i k + D k m) with hi | hi <;>
      rcases min_choice (D m j) (D m k + D k j) with hj | hj <;>
      simp only [pass] at * <;> rw [hi, hj]
    · exact (min_le_left _ _).trans (h m hlt i j)
    · calc min (D i j) (D i k + D k j)
          ≤ D i k + D k j := min_le_right _ _
        _ ≤ (D i m + D m k) + D k j := add_le_add_left (h m hlt i k) _
        _ = D i m + (D m k + D k j) := add_assoc _ _ _
    · calc min (D i j) (D i k + D k j)
          ≤ D i k + D k j := min_le_right _ _
        _ ≤ D i k + (D k m + D m j) := add_le_add_right (h m hlt k j) _
        _ = (D i k + D k m) + D m j := (add_assoc _ _ _).symm
    · calc min (D i j) (D i k + D k j)
          ≤ D i k + D k j := min_le_right _ _
        _ ≤ D i k + (D k k + D k j) := add_le_add_right (le_add_of_nonneg_left hk) _
        _ ≤ D i k + ((D k m + D m k) + D k j) :=
            add_le_add_right (add_le_add_left (h m hlt k k) _) _
        _ = (D i k + D k m) + (D m k + D k j) := by abel
  · rw [column, row]
    exact pass_le_add D m i j

/-- While the diagonal is not negative every stage is closed under the points passed so far. -/
theorem closed_stage (n : ℕ) (D : Distances) (h : ∀ i < n, 0 ≤ D.stage n i i) (k : ℕ)
    (hk : k ≤ n) : Closed k (D.stage k) := by
  induction k with
  | zero =>
    intro m hm
    omega
  | succ k ih =>
    apply closed_pass _ k (ih (by omega))
    exact (h k (by omega)).trans (stage_anti D k k (by omega))

/-- No distance with a limit is longer, in either direction, than a number. -/
def Within (size : ℕ) (D : Distances) : Prop := ∀ i j (m : ℤ), D i j = m → m.natAbs ≤ size

theorem within_pass (size : ℕ) (D : Distances) (h : Within size D) (k : ℕ) :
    Within (2 * size) (D.pass k) := by
  intro i j m hm
  rcases min_choice (D i j) (D i k + D k j) with old | detour
  · have bound := h i j m (old.symm.trans hm)
    omega
  · obtain ⟨a, b, ha, hb, rfl⟩ := WithTop.add_eq_coe.mp (detour.symm.trans hm)
    have first := h i k a ha.symm
    have second := h k j b hb.symm
    omega

theorem within_stage (size : ℕ) (D : Distances) (h : Within size D) (k : ℕ) :
    Within (2 ^ k * size) (D.stage k) := by
  induction k with
  | zero =>
    rw [pow_zero, one_mul]
    exact h
  | succ k ih =>
    rw [pow_succ', mul_assoc]
    exact within_pass _ _ ih k

theorem stage_diagonal (n : ℕ) (D : Distances) (start : ∀ i < n, D i i ≤ 0)
    (h : ∀ i < n, 0 ≤ D.stage n i i) (i : ℕ) (hi : i < n) : D.stage n i i = 0 :=
  le_antisymm ((stage_anti D i i (Nat.zero_le n)).trans (start i hi)) (h i hi)

/-! ## Reading off solutions -/

section Reading

variable (n : ℕ) (D : Distances) (offset : ℕ → ℤ)

def leastSum (x : ℕ) : WithTop ℤ := (Finset.range n).inf fun y => (offset y : WithTop ℤ) + D y x

theorem leastSum_le (x y : ℕ) (hy : y < n) : leastSum n D offset x ≤ offset y + D y x :=
  Finset.inf_le (Finset.mem_range.mpr hy)

theorem leastSum_attained (x : ℕ) (hx : x < n) :
    ∃ y < n, leastSum n D offset x = offset y + D y x := by
  obtain ⟨y, hy, he⟩ := Finset.exists_mem_eq_inf (Finset.range n)
    ⟨x, Finset.mem_range.mpr hx⟩ fun y => (offset y : WithTop ℤ) + D y x
  exact ⟨y, Finset.mem_range.mp hy, he⟩

variable {n D}

theorem leastSum_finite (zero : ∀ i < n, D i i = 0) (x : ℕ) (hx : x < n) :
    ∃ t : ℤ, leastSum n D offset x = t := by
  have upper := leastSum_le n D offset x x hx
  rw [zero x hx, add_zero] at upper
  obtain ⟨t, ht, -⟩ := WithTop.le_coe_iff.mp upper
  exact ⟨t, ht⟩

theorem leastSum_step (closed : Closed n D) (i j : ℕ) (hi : i < n) :
    leastSum n D offset j ≤ leastSum n D offset i + D i j := by
  obtain ⟨y, hy, he⟩ := leastSum_attained n D offset i hi
  calc leastSum n D offset j
      ≤ offset y + D y j := leastSum_le n D offset j y hy
    _ ≤ offset y + (D y i + D i j) := add_le_add_right (closed i hi y j) _
    _ = leastSum n D offset i + D i j := by rw [he, add_assoc]

/-- Closed distances have a solution that keeps every offset not above the sums of the others. -/
theorem exists_meets_offset (closed : Closed n D) (zero : ∀ i < n, D i i = 0) :
    ∃ t, Meets n t D ∧
      ∀ x < n, (∀ y < n, (offset x : WithTop ℤ) ≤ offset y + D y x) → t x = offset x := by
  have finite : ∀ x, ∃ t : ℤ, x < n → leastSum n D offset x = t := by
    intro x
    by_cases hx : x < n
    · obtain ⟨t, ht⟩ := leastSum_finite offset zero x hx
      exact ⟨t, fun _ => ht⟩
    · exact ⟨0, fun h => absurd h hx⟩
  choose t ht using finite
  refine ⟨t, ?_, ?_⟩
  · intro i hi j hj
    have step := leastSum_step offset closed i j hi
    rw [ht i hi, ht j hj] at step
    cases hij : D i j using WithTop.recTopCoe with
    | top => exact le_top
    | coe d =>
      rw [hij, ← WithTop.coe_add, WithTop.coe_le_coe] at step
      rw [WithTop.coe_le_coe]
      omega
  · intro x hx least
    have upper := leastSum_le n D offset x x hx
    obtain ⟨y, hy, he⟩ := leastSum_attained n D offset x hx
    have lower := least y hy
    rw [zero x hx, add_zero, ht x hx, WithTop.coe_le_coe] at upper
    rw [← he, ht x hx, WithTop.coe_le_coe] at lower
    omega

end Reading

section Pinning

variable (n : ℕ) (D : Distances) (u v : ℕ) (d : ℤ)

theorem exists_large (column : ℕ → WithTop ℤ) :
    ∃ large : ℤ, ∀ y < n, (d : WithTop ℤ) ≤ large + column y := by
  induction n with
  | zero => exact ⟨0, fun y hy => absurd hy (Nat.not_lt_zero y)⟩
  | succ n ih =>
    obtain ⟨large, h⟩ := ih
    cases hn : column n using WithTop.recTopCoe with
    | top =>
      refine ⟨large, fun y hy => ?_⟩
      rcases Nat.lt_succ_iff_lt_or_eq.mp hy with hlt | rfl
      · exact h y hlt
      · simp [hn]
    | coe c =>
      refine ⟨max large (d - c), fun y hy => ?_⟩
      rcases Nat.lt_succ_iff_lt_or_eq.mp hy with hlt | rfl
      · exact (h y hlt).trans (add_le_add_left (WithTop.coe_le_coe.mpr (le_max_left _ _)) _)
      · rw [hn, ← WithTop.coe_add, WithTop.coe_le_coe]
        omega

/-- Offsets that fix two points and leave every other one late. -/
def pinned (large : ℤ) (y : ℕ) : ℤ := if y = u then 0 else if y = v then d else large

theorem pinned_first (large : ℤ) : pinned u v d large u = 0 := if_pos rfl

theorem pinned_second (large : ℤ) (h : u = v → d = 0) : pinned u v d large v = d := by
  by_cases huv : v = u
  · rw [pinned, if_pos huv, h huv.symm]
  · rw [pinned, if_neg huv, if_pos rfl]

theorem pinned_other (large : ℤ) (y : ℕ) (hu : y ≠ u) (hv : y ≠ v) :
    pinned u v d large y = large := by
  rw [pinned, if_neg hu, if_neg hv]

variable {n D u v d}

/-- In closed distances two points can be any admissible time apart. -/
theorem exists_meets_apart (closed : Closed n D) (zero : ∀ i < n, D i i = 0) (hu : u < n)
    (hv : v < n) (back : ((-d : ℤ) : WithTop ℤ) ≤ D v u) (forth : (d : WithTop ℤ) ≤ D u v) :
    ∃ t, Meets n t D ∧ t v - t u = d := by
  have same : u = v → d = 0 := by
    rintro rfl
    rw [zero u hu] at back forth
    have hle : d ≤ 0 := by exact_mod_cast forth
    have hge : -d ≤ 0 := by exact_mod_cast back
    omega
  obtain ⟨a, ha⟩ := exists_large n 0 fun y => D y u
  obtain ⟨b, hb⟩ := exists_large n d fun y => D y v
  have late : ∀ y < n, ((0 : ℤ) : WithTop ℤ) ≤ (max a b : ℤ) + D y u ∧
      (d : WithTop ℤ) ≤ (max a b : ℤ) + D y v := by
    intro y hy
    exact ⟨(ha y hy).trans (add_le_add_left (WithTop.coe_le_coe.mpr (le_max_left a b)) _),
      (hb y hy).trans (add_le_add_left (WithTop.coe_le_coe.mpr (le_max_right a b)) _)⟩
  obtain ⟨t, ht, keeps⟩ := exists_meets_offset (pinned u v d (max a b)) closed zero
  have first : t u = 0 := by
    rw [keeps u hu, pinned_first]
    intro y hy
    rw [pinned_first]
    by_cases hyu : y = u
    · rw [hyu, pinned_first, zero u hu, add_zero]
    by_cases hyv : y = v
    · rw [hyv, pinned_second u v d _ same]
      calc ((0 : ℤ) : WithTop ℤ) = ((d : ℤ) : WithTop ℤ) + ((-d : ℤ) : WithTop ℤ) := by
            rw [← WithTop.coe_add, add_neg_cancel]
        _ ≤ d + D v u := add_le_add_right back _
    · rw [pinned_other u v d _ y hyu hyv]
      exact (late y hy).1
  have second : t v = d := by
    rw [keeps v hv, pinned_second u v d _ same]
    intro y hy
    rw [pinned_second u v d _ same]
    by_cases hyu : y = u
    · rw [hyu, pinned_first]
      simpa using forth
    by_cases hyv : y = v
    · rw [hyv, pinned_second u v d _ same, zero v hv, add_zero]
    · rw [pinned_other u v d _ y hyu hyv]
      exact (late y hy).2
  exact ⟨t, ht, by omega⟩

end Pinning

section Solvable

variable (n : ℕ) (D : Distances) (start : ∀ i < n, D i i ≤ 0)
include start

/-- Distances have a solution exactly when the last stage has no negative diagonal cell. -/
theorem exists_meets_iff : (∃ t, Meets n t D) ↔ ∀ i < n, 0 ≤ D.stage n i i := by
  constructor
  · rintro ⟨t, h⟩ i hi
    exact diagonal_of_meets n t _ ((meets_stage n t D n (le_refl n)).mpr h) i hi
  · intro h
    obtain ⟨t, ht, -⟩ := exists_meets_offset (fun _ => 0) (closed_stage n D h n (le_refl n))
      (stage_diagonal n D start h)
    exact ⟨t, (meets_stage n t D n (le_refl n)).mp ht⟩

/-- The last stage bounds the time between two points exactly. -/
theorem exists_meets_apart_iff (h : ∀ i < n, 0 ≤ D.stage n i i) (u v : ℕ) (hu : u < n)
    (hv : v < n) (d : ℤ) :
    (∃ t, Meets n t D ∧ t v - t u = d) ↔
      ((-d : ℤ) : WithTop ℤ) ≤ D.stage n v u ∧ (d : WithTop ℤ) ≤ D.stage n u v := by
  constructor
  · rintro ⟨t, ht, rfl⟩
    have hs := (meets_stage n t D n (le_refl n)).mpr ht
    constructor
    · rw [neg_sub]
      exact hs v hv u hu
    · exact hs u hu v hv
  · rintro ⟨back, forth⟩
    obtain ⟨t, ht, apart⟩ := exists_meets_apart (closed_stage n D h n (le_refl n))
      (stage_diagonal n D start h) hu hv back forth
    exact ⟨t, (meets_stage n t D n (le_refl n)).mp ht, apart⟩

end Solvable

end Distances

end Chronoplan
