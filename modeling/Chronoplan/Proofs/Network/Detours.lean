import Chronoplan.Proofs.Network.Cycles
import Chronoplan.Proofs.Rounding.Sums

/-!
# Detours that rounding keeps short

A matrix may hold any numbers, and a sum in binary64 is rounded. A detour through a third point is
still no longer than the two integers that bound its parts, and a pass never makes a cell larger.
Three points whose bounds contradict each other by integers of 53 bits are therefore found, whatever
else the matrix holds.
-/

set_option autoImplicit false

namespace Chronoplan

/-- An integer that stays within 53 bits when it is taken from minus one. -/
def Tame (z : ℤ) : Prop := -2 ^ 53 < z ∧ z < 2 ^ 53 - 1

/-! ### Cells that are only lowered -/

namespace Matrix

/-- Every cell of the first matrix is one of the second, or a smaller number stands there. -/
structure Lowered (m m' : Matrix) : Prop where
  length : m'.length = m.length
  cell : ∀ i j y, m.cell? i j = some y → ∃ y', m'.cell? i j = some y' ∧ (y' = y ∨ y'.lt y = true)

/-- A square of a given width, in which no cell holds a NaN. -/
structure Placed (n : ℕ) (m : Matrix) : Prop where
  length : m.length = n
  cell : ∀ i < n, ∀ j < n, ∃ y p, m.cell? i j = some y ∧ y.place? = some p

/-- The number in a cell does not lie above an integer. -/
def AtMost (m : Matrix) (i j : ℕ) (k : ℤ) : Prop := ∃ y, m.cell? i j = some y ∧ y.AtMost k

theorem Lowered.refl (m : Matrix) : m.Lowered m := ⟨rfl, fun _ _ y hy => ⟨y, hy, .inl rfl⟩⟩

theorem Lowered.trans {m₁ m₂ m₃ : Matrix} (h : m₁.Lowered m₂) (h' : m₂.Lowered m₃) :
    m₁.Lowered m₃ := by
  refine ⟨h'.length.trans h.length, fun i j y₁ hy₁ => ?_⟩
  obtain ⟨y₂, hy₂, first⟩ := h.cell i j y₁ hy₁
  obtain ⟨y₃, hy₃, second⟩ := h'.cell i j y₂ hy₂
  refine ⟨y₃, hy₃, ?_⟩
  rcases first with rfl | first
  · exact second
  · rcases second with rfl | second
    · exact .inr first
    · exact .inr (Number.lt_trans _ _ _ second first)

section Lowered

variable {m m' : Matrix} (h : m.Lowered m')
include h

theorem Lowered.placed {n : ℕ} (placed : m.Placed n) : m'.Placed n := by
  refine ⟨h.length.trans placed.length, fun i hi j hj => ?_⟩
  obtain ⟨y, p, hy, hp⟩ := placed.cell i hi j hj
  obtain ⟨y', hy', rfl | smaller⟩ := h.cell i j y hy
  · exact ⟨y', p, hy', hp⟩
  · obtain ⟨p', -, hp', -, -⟩ := (Number.lt_iff_place? _ _).mp smaller
    exact ⟨y', p', hy', hp'⟩

theorem Lowered.atMost {i j : ℕ} {k : ℤ} (low : m.AtMost i j k) : m'.AtMost i j k := by
  obtain ⟨y, hy, low⟩ := low
  obtain ⟨y', hy', rfl | smaller⟩ := h.cell i j y hy
  · exact ⟨y', hy', low⟩
  · exact ⟨y', hy', low.of_lt smaller⟩

end Lowered

/-! ### What a pass lowers -/

/-- A row is relaxed cell by cell, as far as the middle row reaches. -/
theorem relaxCells_cell (d : Number) (middle row cells : List Number)
    (h : relaxCells d middle row = .ok cells) (j : ℕ) :
    middle[j]? = none ∧ cells[j]? = row[j]? ∨
      ∃ x c y, middle[j]? = some x ∧ d.add? x = some c ∧ row[j]? = some y ∧
        cells[j]? = some (if c.lt y then c else y) := by
  induction middle generalizing row cells j with
  | nil =>
    cases h
    exact .inl ⟨rfl, rfl⟩
  | cons x xs ih =>
    obtain ⟨c, hc, h⟩ := (bind_eq_ok_iff _ _ _).mp h
    cases row with
    | nil => cases h
    | cons y ys =>
      obtain ⟨rest, hrest, h⟩ := (bind_eq_ok_iff _ _ _).mp h
      cases h
      cases j with
      | zero => exact .inr ⟨x, c, y, rfl, (orFault_eq_ok_iff _ _ _).mp hc, rfl, rfl⟩
      | succ j => simpa using ih ys rest hrest j

section Pass

variable {m m' : Matrix} {k : ℕ} (h : m.pass k = .ok m')
include h

theorem pass_row (i : ℕ) (row : List Number) (hrow : m[i]? = some row) :
    ∃ middle cells, m[k]? = some middle ∧ m'[i]? = some cells ∧
      relaxRow k middle row = .ok cells := by
  rw [pass_eq] at h
  obtain ⟨middle, hmiddle, hrows⟩ := (bind_eq_ok_iff _ _ _).mp h
  obtain ⟨length, relaxed⟩ := List.forall₂_iff_get.mp ((mapM_eq_ok_iff _ _ _).mp hrows)
  obtain ⟨hi, rfl⟩ := List.getElem?_eq_some_iff.mp hrow
  exact ⟨middle, m'[i], (orFault_eq_ok_iff _ _ _).mp hmiddle,
    List.getElem?_eq_getElem (length ▸ hi), relaxed i hi (length ▸ hi)⟩

theorem pass_lowered : m.Lowered m' := by
  refine ⟨pass_length m m' k h, fun i j y hy => ?_⟩
  obtain ⟨row, hrow, hy⟩ := Option.bind_eq_some_iff.mp hy
  obtain ⟨middle, cells, -, hcells, hrelax⟩ := pass_row h i row hrow
  obtain ⟨d, -, hrelax⟩ := (bind_eq_ok_iff _ _ _).mp hrelax
  have cell : ∀ y', cells[j]? = some y' → m'.cell? i j = some y' := by
    intro y' hy'
    rw [cell?, hcells]
    exact hy'
  split at hrelax
  · cases hrelax
    exact ⟨y, cell y hy, .inl rfl⟩
  · rcases relaxCells_cell d middle row cells hrelax j with ⟨-, same⟩ | ⟨x, c, y', -, -, hy', low⟩
    · exact ⟨y, cell y (same.trans hy), .inl rfl⟩
    · cases hy.symm.trans hy'
      refine ⟨_, cell _ low, ?_⟩
      split_ifs with smaller
      · exact .inr smaller
      · exact .inl rfl

/-- A detour through the middle point is no longer than the integers that bound its parts. -/
theorem pass_atMost {n i j : ℕ} {a b : ℤ} (placed : m.Placed n) (hi : i < n) (hj : j < n)
    (first : m.AtMost i k a) (second : m.AtMost k j b) (ha : a.natAbs < 2 ^ 53)
    (hb : b.natAbs < 2 ^ 53) (hab : (a + b).natAbs < 2 ^ 53) : m'.AtMost i j (a + b) := by
  obtain ⟨y, p, hy, hp⟩ := placed.cell i hi j hj
  obtain ⟨row, hrow, hy⟩ := Option.bind_eq_some_iff.mp hy
  obtain ⟨middle, cells, hmiddle, hcells, hrelax⟩ := pass_row h i row hrow
  obtain ⟨d, hd, low⟩ := first
  obtain ⟨x, hx, low'⟩ := second
  rw [cell?, hrow] at hd
  rw [cell?, hmiddle] at hx
  obtain ⟨d', hd', hrelax⟩ := (bind_eq_ok_iff _ _ _).mp hrelax
  cases ((orFault_eq_ok_iff _ _ _).mp hd').symm.trans hd
  rw [low.ne_posInf, if_neg Bool.false_ne_true] at hrelax
  obtain ⟨none, -⟩ | ⟨x', c, y', hx', hc, hy', hmin⟩ :=
    relaxCells_cell d middle row cells hrelax j
  · cases none.symm.trans hx
  · cases hx'.symm.trans hx
    cases hy'.symm.trans hy
    refine ⟨_, ?_, (low.add? low' ha hb hab hc).pick hp⟩
    rw [cell?, hcells]
    exact hmin

end Pass

/-! ### What is entered -/

section Enter

variable (m : Matrix) (i j : ℕ) (x : Number)

theorem cell?_lower (a b : ℕ) : (m.lower i j x).cell? a b =
    if a = i ∧ b = j then (m.cell? a b).map fun old => if x.lt old then x else old
    else m.cell? a b := by
  unfold lower cell?
  rw [List.getElem?_modify]
  cases hrow : m[a]? with
  | none => simp
  | some row =>
    by_cases ha : i = a
    · by_cases hb : j = b
      · simp [ha, hb]
      · simp [ha, hb, Ne.symm hb]
    · simp [ha, Ne.symm ha]

theorem lower_lowered : m.Lowered (m.lower i j x) := by
  refine ⟨List.length_modify _ _ _, fun a b y hy => ?_⟩
  rw [cell?_lower, hy]
  split_ifs
  · refine ⟨if x.lt y then x else y, rfl, ?_⟩
    split_ifs with smaller
    · exact .inr smaller
    · exact .inl rfl
  · exact ⟨y, rfl, .inl rfl⟩

variable {m i j x} in
theorem Placed.lower_atMost {n : ℕ} {k : ℤ} (placed : m.Placed n) (hi : i < n) (hj : j < n)
    (hx : x.AtMost k) : (m.lower i j x).AtMost i j k := by
  obtain ⟨y, p, hy, hp⟩ := placed.cell i hi j hj
  refine ⟨_, ?_, hx.pick hp⟩
  rw [cell?_lower, if_pos ⟨rfl, rfl⟩, hy]
  rfl

end Enter

theorem blank_placed (n : ℕ) : (blank n).Placed n := by
  refine ⟨by simp [blank], fun i hi j hj => ?_⟩
  by_cases same : i = j
  · subst same
    exact ⟨.int 0, _, by simp [cell?, blank, hi], rfl⟩
  · exact ⟨.posInf, _, by simp [cell?, blank, hi, hj, same], rfl⟩

section Build

variable (points : List String)

theorem enter_lowered (m : Matrix) (e : (String × String) × Bound) :
    m.Lowered (enter points m e) := by
  unfold enter
  split
  · exact (lower_lowered _ _ _ _).trans (lower_lowered _ _ _ _)
  · exact .refl m

theorem foldl_enter_lowered (constraints : Constraints) (m : Matrix) :
    m.Lowered (constraints.foldl (enter points) m) := by
  induction constraints generalizing m with
  | nil => exact .refl m
  | cons e rest ih => exact (enter_lowered points m e).trans (ih _)

theorem build_placed (constraints : Constraints) :
    (build points constraints).Placed points.length :=
  (foldl_enter_lowered points constraints _).placed (blank_placed points.length)

/-- What is built from constraints lies, both ways, at or below each of them. -/
theorem build_atMost (constraints : Constraints) (u v : String) (bound : Bound)
    (stored : ((u, v), bound) ∈ constraints) (hu : u ∈ points) (hv : v ∈ points) (k : ℤ) :
    (bound.hi.AtMost k →
        (build points constraints).AtMost (placeIn points u) (placeIn points v) k) ∧
      (bound.lo.neg.AtMost k →
        (build points constraints).AtMost (placeIn points v) (placeIn points u) k) := by
  obtain ⟨before, after, rfl⟩ := List.append_of_mem stored
  have placed := build_placed points before
  rw [build, List.foldl_append, List.foldl_cons]
  rw [build] at placed
  generalize before.foldl (enter points) (blank points.length) = m at placed ⊢
  have entered : enter points m ((u, v), bound) =
      (m.lower (placeIn points u) (placeIn points v) bound.hi).lower (placeIn points v)
        (placeIn points u) bound.lo.neg := by
    simp only [enter, (place?_of_mem points u hu).1, (place?_of_mem points v hv).1]
  have later := foldl_enter_lowered points after (enter points m ((u, v), bound))
  rw [entered] at later ⊢
  have hu' := placeIn_lt points u hu
  have hv' := placeIn_lt points v hv
  constructor
  · intro high
    exact later.atMost ((lower_lowered _ _ _ _).atMost (placed.lower_atMost hu' hv' high))
  · intro low
    exact later.atMost (((lower_lowered _ _ _ _).placed placed).lower_atMost hv' hu' low)

end Build

/-! ### Cycles of three points -/

theorem passes_lowered (ks : List ℕ) (m m' : Matrix) (h : ks.foldlM pass m = .ok m') :
    m.Lowered m' :=
  foldlM_preserves m.Lowered pass ks m m'
    (fun _ _ _ _ before hp => before.trans (pass_lowered hp)) (.refl m) h

theorem exists_range_split (n x q : ℕ) (hx : x < q) (hq : q < n) :
    ∃ l₁ l₂ l₃, List.range n = l₁ ++ x :: (l₂ ++ q :: l₃) := by
  obtain ⟨r, rfl⟩ : ∃ r, n = x + 1 + r := ⟨n - (x + 1), by omega⟩
  have later : q ∈ (List.range r).map (x + 1 + ·) :=
    List.mem_map.mpr ⟨q - (x + 1), List.mem_range.mpr (by omega), by omega⟩
  obtain ⟨l₂, l₃, split⟩ := List.append_of_mem later
  refine ⟨List.range x, l₂, l₃, ?_⟩
  rw [List.range_add, List.range_succ, split, List.append_assoc]
  rfl

section Cycle

variable {n : ℕ} {m m' : Matrix} (placed : m.Placed n) (h : m.close = .ok m')
include placed h

/-- A cycle is found at the end of the later of two of its points. -/
theorem close_detour {p x q : ℕ} {a b c : ℤ} (hp : p < n) (hx : x < q) (hq : q < n)
    (first : m.AtMost p x a) (second : m.AtMost x q b) (third : m.AtMost q p c)
    (ha : Tame a) (hb : Tame b) (hc : Tame c) (cycle : a + b + c = -1) : m'.AtMost p p (-1) := by
  unfold Tame at ha hb hc
  obtain ⟨l₁, l₂, l₃, split⟩ := exists_range_split n x q hx hq
  rw [close, placed.length, split, List.foldlM_append] at h
  obtain ⟨m₁, h₁, h⟩ := (bind_eq_ok_iff _ _ _).mp h
  rw [List.foldlM_cons] at h
  obtain ⟨m₂, h₂, h⟩ := (bind_eq_ok_iff _ _ _).mp h
  rw [List.foldlM_append] at h
  obtain ⟨m₃, h₃, h⟩ := (bind_eq_ok_iff _ _ _).mp h
  rw [List.foldlM_cons] at h
  obtain ⟨m₄, h₄, h⟩ := (bind_eq_ok_iff _ _ _).mp h
  have before := passes_lowered _ _ _ h₁
  have between := passes_lowered _ _ _ h₃
  have reached := (before.trans (pass_lowered h₂)).trans between
  have detour : m₃.AtMost p q (a + b) :=
    between.atMost (pass_atMost h₂ (before.placed placed) hp hq (before.atMost first)
      (before.atMost second) (by omega) (by omega) (by omega))
  have round := pass_atMost h₄ (reached.placed placed) hp hp detour (reached.atMost third)
    (by omega) (by omega) (by omega)
  rw [cycle] at round
  exact (passes_lowered _ _ _ h).atMost round

/-- Whichever of its points is passed first, a cycle is found. -/
theorem close_cycle {i j k : ℕ} {a b c : ℤ} (hi : i < n) (hj : j < n) (hk : k < n) (apart : i ≠ j)
    (first : m.AtMost i j a) (second : m.AtMost j k b) (third : m.AtMost k i c)
    (ha : Tame a) (hb : Tame b) (hc : Tame c) (cycle : a + b + c = -1) :
    ∃ p < n, m'.AtMost p p (-1) := by
  obtain order | order | order : j < k ∨ i < j ∨ k < i := by omega
  · exact ⟨i, hi, close_detour placed h hi order hk first second third ha hb hc cycle⟩
  · exact ⟨k, hk, close_detour placed h hk order hj third first second hc ha hb
      (by omega)⟩
  · exact ⟨j, hj, close_detour placed h hj order hi second third first hb hc ha
      (by omega)⟩

end Cycle

end Matrix

theorem negativePoints_ne_nil (points : List String) (closure : Matrix) (p : ℕ)
    (hp : p < points.length) (low : closure.AtMost p p (-1)) :
    negativePoints points closure ≠ [] := by
  obtain ⟨y, hy, low⟩ := low
  have negative : y.lt (.int 0) = true := by
    obtain ⟨q, hq, below⟩ := (Number.atMost_iff _ y).mp low
    rw [Number.lt_of_place hq rfl]
    cases q with
    | bot => rfl
    | top => cases below
    | line q =>
      simp only [Place.lt, decide_eq_false_iff_not, not_lt, decide_eq_true_eq] at below ⊢
      push_cast at below ⊢
      linarith
  have listed : (points[p], p) ∈ points.zipIdx :=
    List.mem_zipIdx_iff_getElem?.mpr (List.getElem?_eq_getElem hp)
  refine List.ne_nil_of_mem (List.mem_map.mpr ⟨_, List.mem_filter.mpr ⟨listed, ?_⟩, rfl⟩)
  simp only [hy]
  exact negative

namespace Network

variable (n : Network)

/-- The time from one point to another is limited by an integer where the closure starts. -/
def Limits (u v : String) (k : ℤ) : Prop :=
  (Matrix.build n.points n.constraints).AtMost (placeIn n.points u) (placeIn n.points v) k

variable {n}

theorem limits_of_stored {u v : String} {bound : Bound} (stored : n.get? u v = some bound)
    (hu : u ∈ n.points) (hv : v ∈ n.points) (k : ℤ) :
    (bound.hi.AtMost k → n.Limits u v k) ∧ (bound.lo.neg.AtMost k → n.Limits v u k) :=
  Matrix.build_atMost n.points n.constraints u v bound
    (mem_of_find? (u, v) bound n.constraints stored) hu hv k

/-- A network in which the limits between three points contradict each other is not consistent. -/
theorem not_consistent_of_cycle {u v w : String} (hu : u ∈ n.points) (hv : v ∈ n.points)
    (hw : w ∈ n.points) (apart : u ≠ v) {a b c : ℤ} (first : n.Limits u v a)
    (second : n.Limits v w b) (third : n.Limits w u c) (ha : Tame a) (hb : Tame b) (hc : Tame c)
    (cycle : a + b + c = -1) : n.isConsistent ≠ .ok true := by
  intro consistent
  obtain ⟨r, hr, consistent⟩ := (bind_eq_ok_iff _ _ _).mp consistent
  rw [check, checkConsistency_eq] at hr
  obtain ⟨closure, hclosure, hr⟩ := (bind_eq_ok_iff _ _ _).mp hr
  cases hr
  obtain ⟨p, hp, low⟩ := Matrix.close_cycle (Matrix.build_placed n.points n.constraints) hclosure
    (placeIn_lt _ u hu) (placeIn_lt _ v hv) (placeIn_lt _ w hw)
    (fun same => apart (placeIn_inj u v hu hv same)) first second third ha hb hc cycle
  exact negativePoints_ne_nil n.points closure p hp low
    (List.isEmpty_iff.mp (Except.ok.inj consistent))

end Network

end Chronoplan
