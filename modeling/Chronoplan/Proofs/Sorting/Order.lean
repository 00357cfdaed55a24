import Chronoplan.Proofs.Sorting

/-!
# Sorting puts in order

On elements that are compared by a key the sort puts the keys in order. Insertion alone does that,
and the numbers of rises before the elements of its result then tell how any two of them compare.
So the insertion is seen to be orderly, and no runs are merged, however long the list is.
-/

set_option autoImplicit false

namespace Chronoplan

variable {α β : Type} [LinearOrder β]

/-- The elements of a list are compared by a key. -/
def ComparesBy (key : α → β) (lt : α → α → Bool) (l : List α) : Prop :=
  ∀ a ∈ l, ∀ b ∈ l, lt a b = decide (key a < key b)

/-- The keys never fall. -/
def Ascending (key : α → β) (l : List α) : Prop := l.Pairwise fun a b => key a ≤ key b

section

variable {key : α → β} {lt : α → α → Bool}

theorem ComparesBy.mono {l l' : List α} (h : ComparesBy key lt l) (sub : ∀ a ∈ l', a ∈ l) :
    ComparesBy key lt l' :=
  fun a ha b hb => h a (sub a ha) b (sub b hb)

theorem ComparesBy.lt_iff {l : List α} (h : ComparesBy key lt l) {a b : α} (ha : a ∈ l)
    (hb : b ∈ l) : lt a b = true ↔ key a < key b := by
  rw [h a ha b hb, decide_eq_true_eq]

/-! ### Insertion -/

theorem Ascending.split {l : List α} (h : Ascending key l) (i : ℕ) :
    Ascending key (l.take i) ∧ Ascending key (l.drop i) ∧
      ∀ a ∈ l.take i, ∀ b ∈ l.drop i, key a ≤ key b := by
  rw [Ascending, ← List.take_append_drop i l] at h
  exact List.pairwise_append.mp h

theorem Ascending.pivot_le {l : List α} (h : Ascending key l) {i : ℕ} {pivot : α}
    (hpivot : l[i]? = some pivot) : ∀ b ∈ l.drop i, key pivot ≤ key b := by
  obtain ⟨hi, rfl⟩ := List.getElem?_eq_some_iff.mp hpivot
  have behind := (h.split i).2.1
  rw [List.drop_eq_getElem_cons hi] at behind ⊢
  intro b hb
  rcases List.mem_cons.mp hb with rfl | hb
  · exact le_rfl
  · exact (List.pairwise_cons.mp behind).1 b hb

theorem Ascending.le_pivot {l : List α} (h : Ascending key l) {i : ℕ} {pivot : α}
    (hpivot : l[i]? = some pivot) : ∀ a ∈ l.take (i + 1), key a ≤ key pivot := by
  obtain ⟨hi, rfl⟩ := List.getElem?_eq_some_iff.mp hpivot
  intro a ha
  rw [← List.take_concat_get' l i hi] at ha
  rcases List.mem_append.mp ha with ha | ha
  · refine (h.split i).2.2 a ha _ ?_
    rw [List.drop_eq_getElem_cons hi]
    exact List.mem_cons_self
  · rw [List.mem_singleton.mp ha]

/-- The pivot tells which half of the list the element goes to. -/
theorem insertByHalving_ascending (x : α) (l : List α) (hl : Ascending key l)
    (h : ComparesBy key lt (x :: l)) : Ascending key (insertByHalving lt x l) := by
  fun_induction insertByHalving lt x l with
  | case1 l hnone => exact List.pairwise_singleton _ _
  | case2 l pivot hpivot hlt ih =>
    have member := List.mem_of_getElem? hpivot
    have below : key x < key pivot := (h.lt_iff (by simp) (by simp [member])).mp hlt
    obtain ⟨front, back, across⟩ := hl.split (l.length / 2)
    apply List.pairwise_append.mpr
    refine ⟨ih front (h.mono (List.cons_subset_cons x (List.take_subset _ l))), back, ?_⟩
    intro a ha b hb
    rcases List.mem_cons.mp ((insertByHalving_perm lt x _).mem_iff.mp ha) with rfl | ha
    · exact below.le.trans (hl.pivot_le hpivot b hb)
    · exact across a ha b hb
  | case3 l pivot hpivot hlt ih =>
    have member := List.mem_of_getElem? hpivot
    have reached : key pivot ≤ key x := by
      rw [← not_lt, ← h.lt_iff (by simp) (by simp [member])]
      exact hlt
    obtain ⟨front, back, across⟩ := hl.split (l.length / 2 + 1)
    apply List.pairwise_append.mpr
    refine ⟨front, ih back (h.mono (List.cons_subset_cons x (List.drop_subset _ l))), ?_⟩
    intro a ha b hb
    rcases List.mem_cons.mp ((insertByHalving_perm lt x _).mem_iff.mp hb) with rfl | hb
    · exact (hl.le_pivot hpivot a ha).trans reached
    · exact across a ha b hb

theorem foldl_insertByHalving_ascending (rest run : List α) (hrun : Ascending key run)
    (h : ComparesBy key lt (run ++ rest)) :
    Ascending key (rest.foldl (fun sorted z => insertByHalving lt z sorted) run) := by
  induction rest generalizing run with
  | nil => exact hrun
  | cons x rest ih =>
    have placed := insertByHalving_perm lt x run
    apply ih
    · apply insertByHalving_ascending x run hrun
      apply h.mono
      intro a ha
      rcases List.mem_cons.mp ha with rfl | ha
      · simp
      · simp [ha]
    · apply h.mono
      intro a ha
      rcases List.mem_append.mp ha with ha | ha
      · rcases List.mem_cons.mp (placed.mem_iff.mp ha) with rfl | ha
        · simp
        · simp [ha]
      · simp [ha]

/-! ### The run at the front -/

theorem risingRun_ascending (p : α) (l : List α) (h : ComparesBy key lt (p :: l)) :
    Ascending key (p :: (risingRun lt p l).1) := by
  induction l generalizing p with
  | nil => exact List.pairwise_singleton _ _
  | cons x r ih =>
    by_cases hx : lt x p = true
    · simp [risingRun, hx, Ascending]
    · have step : key p ≤ key x := by
        rw [← not_lt, ← h.lt_iff (by simp) (by simp)]
        exact hx
      -- The run goes on from its last element, so the hypothesis is that of the rest alone.
      have later := ih x (h.mono fun a ha => List.mem_cons_of_mem p ha)
      simp only [risingRun, hx]
      apply List.pairwise_cons.mpr
      refine ⟨?_, later⟩
      intro a ha
      rcases List.mem_cons.mp ha with rfl | ha
      · exact step
      · exact step.trans ((List.pairwise_cons.mp later).1 a ha)

theorem fallingRun_descending (p : α) (l : List α) (h : ComparesBy key lt (p :: l)) :
    (p :: (fallingRun lt p l).1).Pairwise fun a b => key b ≤ key a := by
  induction l generalizing p with
  | nil => exact List.pairwise_singleton _ _
  | cons x r ih =>
    by_cases hx : lt x p = true
    · have step : key x < key p := (h.lt_iff (by simp) (by simp)).mp hx
      have later := ih x (h.mono fun a ha => List.mem_cons_of_mem p ha)
      simp only [fallingRun, hx]
      apply List.pairwise_cons.mpr
      refine ⟨?_, later⟩
      intro a ha
      rcases List.mem_cons.mp ha with rfl | ha
      · exact step.le
      · exact ((List.pairwise_cons.mp later).1 a ha).trans step.le
    · simp [fallingRun, hx]

theorem insertionSort_ascending (l : List α) (h : ComparesBy key lt l) :
    Ascending key (insertionSort lt l) := by
  match l with
  | [] => exact .nil
  | [x] => exact List.pairwise_singleton _ x
  | x :: y :: r =>
    unfold insertionSort
    by_cases down : lt y x = true
    · have whole := fallingRun_append lt x (y :: r)
      simp only [down, if_true]
      apply foldl_insertByHalving_ascending
      · exact List.pairwise_reverse.mpr (fallingRun_descending x (y :: r) h)
      · apply h.mono
        intro a ha
        rw [← whole]
        simpa [or_left_comm] using ha
    · have whole := risingRun_append lt x (y :: r)
      simp only [down]
      apply foldl_insertByHalving_ascending
      · exact risingRun_ascending x (y :: r) h
      · apply h.mono
        intro a ha
        rw [← whole]
        simpa using ha

/-! ### Ranks -/

/-- In an ascending list the rank of an element exceeds that of the first one exactly when its key
does. -/
theorem ranked_spec (x : α) (l : List α) (rank : ℕ) (sorted : Ascending key (x :: l))
    (h : ComparesBy key lt (x :: l)) : ∀ e ∈ ranked lt rank (x :: l),
      e.1 ∈ x :: l ∧ rank ≤ e.2 ∧ (rank < e.2 ↔ key x < key e.1) := by
  induction l generalizing x rank with
  | nil => simp [ranked]
  | cons y r ih =>
    intro e he
    obtain ⟨above, sorted'⟩ := List.pairwise_cons.mp sorted
    rcases List.mem_cons.mp he with rfl | he
    · simp
    · have later := ih y _ sorted' (h.mono fun a ha => List.mem_cons_of_mem x ha) e he
      have step := h.lt_iff (a := x) (b := y) (by simp) (by simp)
      have first := above y List.mem_cons_self
      refine ⟨List.mem_cons_of_mem x later.1, ?_⟩
      by_cases rise : lt x y = true
      · have below : key x < key e.1 := by
          refine (step.mp rise).trans_le ?_
          rcases List.mem_cons.mp later.1 with same | behind
          · rw [same]
          · exact (List.pairwise_cons.mp sorted').1 e.1 behind
        simp only [rise, if_true] at later
        exact ⟨by omega, iff_of_true (by omega) below⟩
      -- An element of the same key keeps the rank, so the claim is that of the next element.
      · have level : key x = key y := le_antisymm first (not_lt.mp fun c => rise (step.mpr c))
        simp only [rise] at later
        rw [level]
        exact later.2

/-- The ranks in an ascending list tell how any two of its elements compare. -/
theorem ranksDecide_of_ascending (l : List α) (rank : ℕ) (sorted : Ascending key l)
    (h : ComparesBy key lt l) : ranksDecide lt (ranked lt rank l) = true := by
  induction l generalizing rank with
  | nil => rfl
  | cons x r ih =>
    cases r with
    | nil => rfl
    | cons y r =>
      have ranks := ranked_spec x (y :: r) rank sorted h
      obtain ⟨above, sorted'⟩ := List.pairwise_cons.mp sorted
      rw [ranked, ranksDecide, Bool.and_eq_true, List.all_eq_true]
      refine ⟨?_, ih _ sorted' (h.mono fun a ha => List.mem_cons_of_mem x ha)⟩
      intro e he
      obtain ⟨member, -, tells⟩ := ranks e (List.mem_cons_of_mem _ he)
      have upward : key x ≤ key e.1 := by
        rcases List.mem_cons.mp member with same | behind
        · rw [same]
        · exact above e.1 behind
      simp [h e.1 member x List.mem_cons_self, h x List.mem_cons_self e.1 member, tells, upward]

/-- Elements that are compared by a key are put in the order of their keys. -/
theorem stableSort_ascending (l : List α) (h : ComparesBy key lt l) :
    Ascending key (stableSort lt l) := by
  have sorted := insertionSort_ascending l h
  have orderly : isOrderly lt (insertionSort lt l) = true :=
    ranksDecide_of_ascending _ 0 sorted
      (h.mono fun a ha => (insertionSort_perm lt l).mem_iff.mp ha)
  rw [stableSort, orderly, Bool.or_true, if_pos rfl]
  exact sorted

end

end Chronoplan
