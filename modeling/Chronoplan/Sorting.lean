/-!
# Binary insertion sort

A stable sort by a strict order. The longest run at the front that is already in order (or in
strictly falling order, which is turned round) is kept, and every further element is placed by
halving. For a total order this is any stable sort; the exact sequence of comparisons matters
only for elements, such as a NaN, that compare with nothing.
-/

set_option autoImplicit false

namespace Chronoplan

variable {α : Type}

/-- Places `x` behind every element of `l` that it is not below. -/
def insertByHalving (lt : α → α → Bool) (x : α) (l : List α) : List α :=
  match _h : l[l.length / 2]? with
  | none => [x]
  | some pivot =>
    if lt x pivot then
      insertByHalving lt x (l.take (l.length / 2)) ++ l.drop (l.length / 2)
    else
      l.take (l.length / 2 + 1) ++ insertByHalving lt x (l.drop (l.length / 2 + 1))
termination_by l.length
decreasing_by
  · have := (List.getElem?_eq_some_iff.1 _h).1
    simp only [List.length_take]; omega
  · have := (List.getElem?_eq_some_iff.1 _h).1
    simp only [List.length_drop]; omega

def risingRun (lt : α → α → Bool) (previous : α) : List α → List α × List α
  | [] => ([], [])
  | x :: r =>
    if lt x previous then ([], x :: r)
    else
      let (run, rest) := risingRun lt x r
      (x :: run, rest)

def fallingRun (lt : α → α → Bool) (previous : α) : List α → List α × List α
  | [] => ([], [])
  | x :: r =>
    if lt x previous then
      let (run, rest) := fallingRun lt x r
      (x :: run, rest)
    else ([], x :: r)

def insertionSort (lt : α → α → Bool) : List α → List α
  | [] => []
  | [x] => [x]
  | x :: y :: r =>
    let (run, rest) :=
      if lt y x then
        let (down, rest) := fallingRun lt x (y :: r)
        ((x :: down).reverse, rest)
      else
        let (up, rest) := risingRun lt x (y :: r)
        (x :: up, rest)
    rest.foldl (fun sorted z => insertByHalving lt z sorted) run

theorem insertByHalving_perm (lt : α → α → Bool) (x : α) (l : List α) :
    (insertByHalving lt x l).Perm (x :: l) := by
  fun_induction insertByHalving lt x l with
  | case1 l h =>
    have : l = [] := by
      have := List.getElem?_eq_none_iff.1 h
      exact List.length_eq_zero_iff.1 (by omega)
    subst this
    exact List.Perm.refl _
  | case2 l pivot h hlt ih =>
    have := ih.append_right (l.drop (l.length / 2))
    simpa [List.take_append_drop] using this
  | case3 l pivot h hlt ih =>
    have h1 := ih.append_left (l.take (l.length / 2 + 1))
    have h2 : (l.take (l.length / 2 + 1) ++ x :: l.drop (l.length / 2 + 1)).Perm
        (x :: (l.take (l.length / 2 + 1) ++ l.drop (l.length / 2 + 1))) :=
      List.perm_middle
    rw [List.take_append_drop] at h2
    exact h1.trans h2

theorem risingRun_append (lt : α → α → Bool) (p : α) (l : List α) :
    (risingRun lt p l).1 ++ (risingRun lt p l).2 = l := by
  induction l generalizing p with
  | nil => rfl
  | cons x r ih => by_cases h : lt x p <;> simp [risingRun, h, ih]

theorem fallingRun_append (lt : α → α → Bool) (p : α) (l : List α) :
    (fallingRun lt p l).1 ++ (fallingRun lt p l).2 = l := by
  induction l generalizing p with
  | nil => rfl
  | cons x r ih => by_cases h : lt x p <;> simp [fallingRun, h, ih]

theorem foldl_insertByHalving_perm (lt : α → α → Bool) (rest run : List α) :
    (rest.foldl (fun sorted z => insertByHalving lt z sorted) run).Perm (run ++ rest) := by
  induction rest generalizing run with
  | nil => simp
  | cons x r ih =>
    have h := (insertByHalving_perm lt x run).append_right r
    exact (ih _).trans (h.trans (by simpa using List.perm_middle.symm))

theorem insertionSort_perm (lt : α → α → Bool) (l : List α) : (insertionSort lt l).Perm l := by
  match l with
  | [] => exact List.Perm.refl _
  | [x] => exact List.Perm.refl _
  | x :: y :: r =>
    unfold insertionSort
    by_cases h : lt y x
    · have hrun := fallingRun_append lt x (y :: r)
      simp only [h, if_true]
      refine (foldl_insertByHalving_perm lt _ _).trans ?_
      refine ((List.reverse_perm _).append_right _).trans ?_
      rw [List.cons_append, hrun]
    · have hrun := risingRun_append lt x (y :: r)
      simp only [h, Bool.false_eq_true, if_false]
      refine (foldl_insertByHalving_perm lt _ _).trans ?_
      rw [List.cons_append, hrun]

end Chronoplan
