import Chronoplan.Proofs.Network.Closure

/-!
# Constraints as distances

The matrix built from constraints is the table of the distances that start at zero on the diagonal
and without limit elsewhere, lowered by both numbers of every bound. Times meet these distances
exactly when every bound contains the time between its points.
-/

set_option autoImplicit false

namespace Chronoplan

/-- The distance that a number stands for; only an integer limits it. -/
def Number.toDistance : Number → WithTop ℤ
  | .int m => m
  | _ => ⊤

@[simp] theorem Number.toDistance_ofDistance (a : WithTop ℤ) : (ofDistance a).toDistance = a := by
  cases a using WithTop.recTopCoe with
  | top => rfl
  | coe m => rfl

def placeIn (points : List String) (p : String) : ℕ := (Matrix.place? points p).getD 0

theorem place?_of_mem (points : List String) (p : String) (hp : p ∈ points) :
    Matrix.place? points p = some (placeIn points p) ∧ points[placeIn points p]? = some p := by
  unfold placeIn Matrix.place?
  cases hf : points.reverse.findIdx? (· == p) with
  | none =>
    have absent := List.findIdx?_eq_none_iff.mp hf p (List.mem_reverse.mpr hp)
    simp at absent
  | some i =>
    obtain ⟨hi, found, -⟩ := List.findIdx?_eq_some_iff_getElem.mp hf
    rw [List.getElem_reverse, beq_iff_eq] at found
    rw [List.length_reverse] at hi
    constructor
    · rfl
    · rw [Option.map_some, Option.getD_some, List.getElem?_eq_getElem (by omega), found]

theorem mem_of_place? (points : List String) (p : String) (i : ℕ)
    (h : Matrix.place? points p = some i) : p ∈ points := by
  obtain ⟨j, hj, -⟩ := Option.map_eq_some_iff.mp h
  obtain ⟨hlt, same, -⟩ := List.findIdx?_eq_some_iff_getElem.mp hj
  rw [← beq_iff_eq.mp same]
  exact List.mem_reverse.mp (List.getElem_mem hlt)

theorem placeIn_lt (points : List String) (p : String) (hp : p ∈ points) :
    placeIn points p < points.length :=
  (List.getElem?_eq_some_iff.mp (place?_of_mem points p hp).2).1

namespace Distances

def start : Distances := fun i j => if i = j then 0 else ⊤

def lower (D : Distances) (i j : ℕ) (x : WithTop ℤ) : Distances :=
  fun a b => if a = i ∧ b = j then min (D a b) x else D a b

def enter (points : List String) (D : Distances) (entry : (String × String) × Bound) : Distances :=
  match Matrix.place? points entry.1.1, Matrix.place? points entry.1.2 with
  | some i, some j => (D.lower i j entry.2.hi.toDistance).lower j i entry.2.lo.neg.toDistance
  | _, _ => D

def ofConstraints (points : List String) (constraints : Constraints) : Distances :=
  constraints.foldl (enter points) start

theorem blank_eq_table (n : ℕ) : Matrix.blank n = start.table n := by
  unfold Matrix.blank table row start
  apply List.map_congr_left
  intro i _
  apply List.map_congr_left
  intro j _
  by_cases h : i = j
  · rw [if_pos h, if_pos h]
    rfl
  · rw [if_neg h, if_neg h]
    rfl

theorem modify_map_range {α : Type} (n i : ℕ) (f : ℕ → α) (g : α → α) :
    ((List.range n).map f).modify i g =
      (List.range n).map fun a => if a = i then g (f a) else f a := by
  apply List.ext_getElem?
  intro a
  rw [List.getElem?_modify]
  by_cases ha : a < n
  · by_cases hi : i = a
    · simp [ha, hi]
    · simp [ha, hi, Ne.symm hi]
  · simp [ha]

theorem lower_table (n : ℕ) (D : Distances) (i j : ℕ) (x : WithTop ℤ) :
    (D.table n).lower i j (Number.ofDistance x) = (D.lower i j x).table n := by
  unfold Matrix.lower table
  rw [modify_map_range]
  apply List.map_congr_left
  intro a _
  unfold row lower
  by_cases ha : a = i
  · rw [if_pos ha, modify_map_range]
    apply List.map_congr_left
    intro b _
    by_cases hb : b = j
    · simp only [ha, hb, and_self, if_true, Number.lt_ofDistance]
      exact ite_lt_eq_min Number.ofDistance _ _
    · simp [hb]
  · simp [ha]

theorem enter_table (points : List String) (n : ℕ) (D : Distances)
    (entry : (String × String) × Bound) (h : entry.2.Integral) :
    Matrix.enter points (D.table n) entry = (D.enter points entry).table n := by
  obtain ⟨back, forth, hb⟩ := h
  unfold Matrix.enter enter
  rw [hb]
  cases Matrix.place? points entry.1.1 with
  | none => rfl
  | some i =>
    cases Matrix.place? points entry.1.2 with
    | none => rfl
    | some j =>
      simp only [Bound.ofDistances, Number.neg_neg_ofDistance, lower_table,
        Number.toDistance_ofDistance]

theorem build_eq_table (points : List String) (constraints : Constraints)
    (h : ∀ e ∈ constraints, e.2.Integral) :
    Matrix.build points constraints = (ofConstraints points constraints).table points.length := by
  unfold Matrix.build ofConstraints
  rw [blank_eq_table]
  generalize start = D
  induction constraints generalizing D with
  | nil => rfl
  | cons e rest ih =>
    rw [List.foldl_cons, List.foldl_cons, enter_table points _ D e (h e List.mem_cons_self)]
    exact ih (fun e' he' => h e' (List.mem_cons_of_mem e he')) _

theorem lower_le (D : Distances) (i j : ℕ) (x : WithTop ℤ) (a b : ℕ) :
    D.lower i j x a b ≤ D a b := by
  unfold lower
  split_ifs
  · exact min_le_left _ _
  · exact le_refl _

theorem enter_cases (points : List String) (D : Distances) (entry : (String × String) × Bound) :
    D.enter points entry = D ∨ ∃ i j, D.enter points entry
      = (D.lower i j entry.2.hi.toDistance).lower j i entry.2.lo.neg.toDistance := by
  unfold enter
  cases Matrix.place? points entry.1.1 with
  | none => exact .inl rfl
  | some i =>
    cases Matrix.place? points entry.1.2 with
    | none => exact .inl rfl
    | some j => exact .inr ⟨i, j, rfl⟩

theorem enter_le (points : List String) (D : Distances) (entry : (String × String) × Bound)
    (a b : ℕ) : D.enter points entry a b ≤ D a b := by
  rcases enter_cases points D entry with same | ⟨i, j, lowered⟩
  · rw [same]
  · rw [lowered]
    exact (lower_le _ _ _ _ a b).trans (lower_le _ _ _ _ a b)

theorem foldl_enter_le (points : List String) (constraints : Constraints) (D : Distances)
    (a b : ℕ) : constraints.foldl (enter points) D a b ≤ D a b := by
  induction constraints generalizing D with
  | nil => exact le_refl _
  | cons e rest ih => exact (ih _).trans (enter_le points D e a b)

theorem ofConstraints_diagonal (points : List String) (constraints : Constraints) (i : ℕ) :
    ofConstraints points constraints i i ≤ 0 :=
  (foldl_enter_le points constraints start i i).trans (by simp [start])

/-- The distances are at most what every constraint between known points asks for. -/
theorem ofConstraints_le (points : List String) (constraints : Constraints)
    (e : (String × String) × Bound) (he : e ∈ constraints) (i j : ℕ)
    (hi : Matrix.place? points e.1.1 = some i) (hj : Matrix.place? points e.1.2 = some j) :
    ofConstraints points constraints i j ≤ e.2.hi.toDistance ∧
      ofConstraints points constraints j i ≤ e.2.lo.neg.toDistance := by
  obtain ⟨before, after, rfl⟩ := List.append_of_mem he
  rw [ofConstraints, List.foldl_append, List.foldl_cons]
  generalize before.foldl (enter points) start = D
  have entered : D.enter points e =
      (D.lower i j e.2.hi.toDistance).lower j i e.2.lo.neg.toDistance := by
    unfold enter
    rw [hi, hj]
  rw [entered]
  constructor
  · refine (foldl_enter_le points after _ i j).trans ((lower_le _ j i _ i j).trans ?_)
    rw [lower, if_pos ⟨rfl, rfl⟩]
    exact min_le_right _ _
  · refine (foldl_enter_le points after _ j i).trans ?_
    rw [lower, if_pos ⟨rfl, rfl⟩]
    exact min_le_right _ _

theorem lower_attained (D : Distances) (a b : ℕ) (x : WithTop ℤ) (i j : ℕ) (m : ℤ)
    (h : D.lower a b x i j = m) : D i j = m ∨ i = a ∧ j = b ∧ x = m := by
  unfold lower at h
  split_ifs at h with here
  · rcases min_choice (D i j) x with old | new
    · exact .inl (old.symm.trans h)
    · exact .inr ⟨here.1, here.2, new.symm.trans h⟩
  · exact .inl h

/-- A distance with a limit is one that the distances start with, or a constraint asks for it. -/
theorem ofConstraints_attained (points : List String) (constraints : Constraints) (i j : ℕ)
    (m : ℤ) (h : ofConstraints points constraints i j = m) :
    start i j = m ∨ ∃ e ∈ constraints,
      (Matrix.place? points e.1.1 = some i ∧ Matrix.place? points e.1.2 = some j ∧
        e.2.hi.toDistance = m) ∨
      (Matrix.place? points e.1.2 = some i ∧ Matrix.place? points e.1.1 = some j ∧
        e.2.lo.neg.toDistance = m) := by
  unfold ofConstraints at h
  generalize start = D at h
  induction constraints generalizing D with
  | nil => exact .inl h
  | cons e rest ih =>
    rcases ih (D.enter points e) h with here | ⟨e', he', asked⟩
    · unfold enter at here
      cases ha : Matrix.place? points e.1.1 with
      | none =>
        rw [ha] at here
        exact .inl here
      | some a =>
        cases hb : Matrix.place? points e.1.2 with
        | none =>
          rw [ha, hb] at here
          exact .inl here
        | some b =>
          rw [ha, hb] at here
          rcases lower_attained _ _ _ _ _ _ _ here with first | ⟨rfl, rfl, back⟩
          · rcases lower_attained _ _ _ _ _ _ _ first with old | ⟨rfl, rfl, forth⟩
            · exact .inl old
            · exact .inr ⟨e, List.mem_cons_self, .inl ⟨ha, hb, forth⟩⟩
          · exact .inr ⟨e, List.mem_cons_self, .inr ⟨hb, ha, back⟩⟩
    · exact .inr ⟨e', List.mem_cons_of_mem e he', asked⟩

theorem within_lower (size : ℕ) (D : Distances) (h : Within size D) (i j : ℕ) (x : WithTop ℤ)
    (hx : ∀ m : ℤ, x = m → m.natAbs ≤ size) : Within size (D.lower i j x) := by
  intro a b m hm
  unfold lower at hm
  split_ifs at hm
  · rcases min_choice (D a b) x with old | new
    · exact h a b m (old.symm.trans hm)
    · exact hx m (new.symm.trans hm)
  · exact h a b m hm

theorem within_enter (size : ℕ) (points : List String) (D : Distances) (hD : Within size D)
    (entry : (String × String) × Bound) (h : entry.2.Integral)
    (small : ∀ m : ℤ, entry.2.lo = .int m ∨ entry.2.hi = .int m → m.natAbs ≤ size) :
    Within size (D.enter points entry) := by
  rcases enter_cases points D entry with same | ⟨i, j, lowered⟩
  · rw [same]
    exact hD
  · obtain ⟨back, forth, hb⟩ := h
    rw [hb] at small lowered
    simp only [Bound.ofDistances, Number.neg_neg_ofDistance,
      Number.toDistance_ofDistance] at lowered
    rw [lowered]
    apply within_lower size _ (within_lower size D hD i j forth _) j i back
    · rintro m rfl
      have neg := small (-m) (.inl rfl)
      omega
    · rintro m rfl
      exact small m (.inr rfl)

theorem within_start (size : ℕ) : Within size start := by
  intro i j m hm
  unfold start at hm
  split_ifs at hm
  · have zero : m = 0 := by exact_mod_cast hm.symm
    rw [zero]
    exact Nat.zero_le size
  · cases hm

theorem within_ofConstraints (size : ℕ) (points : List String) (constraints : Constraints)
    (h : ∀ e ∈ constraints, e.2.Integral)
    (small : ∀ e ∈ constraints, ∀ m : ℤ, e.2.lo = .int m ∨ e.2.hi = .int m → m.natAbs ≤ size) :
    Within size (ofConstraints points constraints) := by
  have entered : ∀ D : Distances, Within size D →
      Within size (constraints.foldl (enter points) D) := by
    intro D hD
    induction constraints generalizing D with
    | nil => exact hD
    | cons e rest ih =>
      obtain ⟨he, h'⟩ := List.forall_mem_cons.mp h
      obtain ⟨hs, small'⟩ := List.forall_mem_cons.mp small
      exact ih h' small' _ (within_enter size points D hD e he hs)
  exact entered start (within_start size)

theorem meets_lower (n : ℕ) (t : ℕ → ℤ) (D : Distances) (i j : ℕ) (x : WithTop ℤ) (hi : i < n)
    (hj : j < n) :
    Meets n t (D.lower i j x) ↔ Meets n t D ∧ ((t j - t i : ℤ) : WithTop ℤ) ≤ x := by
  constructor
  · intro h
    constructor
    · intro a ha b hb
      exact (h a ha b hb).trans (lower_le D i j x a b)
    · have cell := h i hi j hj
      rw [lower, if_pos ⟨rfl, rfl⟩] at cell
      exact cell.trans (min_le_right _ _)
  · rintro ⟨h, hx⟩ a ha b hb
    unfold lower
    split_ifs with hab
    · rw [hab.1, hab.2]
      exact le_min (h i hi j hj) hx
    · exact h a ha b hb

theorem meets_start (n : ℕ) (t : ℕ → ℤ) : Meets n t start := by
  intro i _ j _
  unfold start
  split_ifs with h
  · rw [h, sub_self]
    exact le_refl _
  · exact le_top

theorem meets_enter (points : List String) (t : ℕ → ℤ) (D : Distances)
    (entry : (String × String) × Bound) (h₁ : entry.1.1 ∈ points) (h₂ : entry.1.2 ∈ points)
    (h : entry.2.Integral) :
    Meets points.length t (D.enter points entry) ↔ Meets points.length t D ∧ entry.2.contains
      (.int (t (placeIn points entry.1.2) - t (placeIn points entry.1.1))) = true := by
  obtain ⟨back, forth, hb⟩ := h
  unfold enter
  rw [(place?_of_mem points _ h₁).1, (place?_of_mem points _ h₂).1, hb, Bound.contains_ofDistances]
  simp only [Bound.ofDistances, Number.neg_neg_ofDistance, Number.toDistance_ofDistance]
  rw [meets_lower _ _ _ _ _ _ (placeIn_lt points _ h₂) (placeIn_lt points _ h₁),
    meets_lower _ _ _ _ _ _ (placeIn_lt points _ h₁) (placeIn_lt points _ h₂), neg_sub]
  tauto

theorem meets_ofConstraints (points : List String) (constraints : Constraints) (t : ℕ → ℤ)
    (ends : ∀ e ∈ constraints, e.1.1 ∈ points ∧ e.1.2 ∈ points)
    (h : ∀ e ∈ constraints, e.2.Integral) :
    Meets points.length t (ofConstraints points constraints) ↔ ∀ e ∈ constraints,
      e.2.contains (.int (t (placeIn points e.1.2) - t (placeIn points e.1.1))) = true := by
  have entered : ∀ D : Distances, Meets points.length t (constraints.foldl (enter points) D) ↔
      Meets points.length t D ∧ ∀ e ∈ constraints,
        e.2.contains (.int (t (placeIn points e.1.2) - t (placeIn points e.1.1))) = true := by
    intro D
    induction constraints generalizing D with
    | nil => simp
    | cons e rest ih =>
      obtain ⟨⟨h₁, h₂⟩, ends'⟩ := List.forall_mem_cons.mp ends
      obtain ⟨he, h'⟩ := List.forall_mem_cons.mp h
      rw [List.foldl_cons, ih ends' h', meets_enter points t D e h₁ h₂ he, List.forall_mem_cons,
        and_assoc]
  exact (entered start).trans (and_iff_right (meets_start _ t))

end Distances
end Chronoplan
