import Mathlib
import Chronoplan.Sorting.Galloping

/-!
# Sorting rearranges

Whatever the order is, and even where elements fail to compare, a sorted list has the elements
of the given one. Merges are followed by counting: at every exit an element occurs as often in
the result as in all that the merge began with.
-/

set_option autoImplicit false

namespace Chronoplan

variable {α : Type}

/-- The natural run consists of the first elements, in their order or turned round. -/
theorem naturalRun_perm (lt : α → α → Bool) (l : List α) :
    (naturalRun lt l).Perm (l.take (naturalRun lt l).length) := by
  unfold naturalRun
  split
  · simp
  · simp
  · next x y rest =>
    split
    · have whole : (x :: (fallingRun lt x (y :: rest)).1) ++ (fallingRun lt x (y :: rest)).2 =
          x :: y :: rest := congrArg (x :: ·) (fallingRun_append lt x (y :: rest))
      rw [List.length_reverse]
      conv_rhs => rw [← whole, List.take_left' rfl]
      exact List.reverse_perm _
    · have whole : (x :: (risingRun lt x (y :: rest)).1) ++ (risingRun lt x (y :: rest)).2 =
          x :: y :: rest := congrArg (x :: ·) (risingRun_append lt x (y :: rest))
      conv_rhs => rw [← whole, List.take_left' rfl]

theorem naturalRun_length_pos (lt : α → α → Bool) (l : List α) (hl : l ≠ []) :
    0 < (naturalRun lt l).length := by
  unfold naturalRun
  split
  · exact absurd rfl hl
  · simp
  · split <;> simp

section Counting

variable [DecidableEq α]

theorem count_take (z : α) (k : ℕ) (l : List α) :
    (l.take k).count z = l.count z - (l.drop k).count z := by
  conv_rhs => rw [← List.take_append_drop k l, List.count_append]
  simp

theorem count_drop_le (z : α) (k : ℕ) (l : List α) : (l.drop k).count z ≤ l.count z :=
  (List.drop_sublist k l).count_le z

/-- How often an element occurs in what a merge has and has left. -/
def Merge.count (z : α) (m : Merge α) : ℕ :=
  m.merged.count z + m.left.count z + m.right.count z

theorem count_mergeFront (lt : α → α → Bool) (z : α) (fuel : ℕ) (ahead : Bool)
    (wonLeft wonRight least : ℕ) (m : Merge α) :
    (mergeFront lt fuel ahead wonLeft wonRight least m).1.count z = m.count z := by
  fun_induction mergeFront lt fuel ahead wonLeft wonRight least m <;>
    grind [Merge.count, = count_take, count_drop_le]

theorem count_mergeBack (lt : α → α → Bool) (z : α) (fuel : ℕ) (ahead : Bool)
    (wonLeft wonRight least : ℕ) (m : Merge α) :
    (mergeBack lt fuel ahead wonLeft wonRight least m).1.count z = m.count z := by
  fun_induction mergeBack lt fuel ahead wonLeft wonRight least m <;>
    grind [Merge.count, = count_take, count_drop_le]

/-- The parts that stay in their places and the merged middle make up both runs. -/
theorem count_mergeRuns (lt : α → α → Bool) (z : α) (least : ℕ) (a b : List α) :
    (mergeRuns lt least a b).1.count z = a.count z + b.count z := by
  unfold mergeRuns
  split
  · simp
  · next y rest =>
    generalize placeBehind lt y a 0 = before
    simp only
    split
    · simp
    · next x hlast =>
      generalize placeBefore lt x (y :: rest) _ = inside
      simp only [List.count_append]
      have whole : a.count z + (y :: rest).count z = (a.take before).count z +
          ((a.drop before).count z + ((y :: rest).take inside).count z) +
          ((y :: rest).drop inside).count z := by
        grind [= count_take, count_drop_le]
      rw [whole]
      congr 2
      clear whole hlast
      generalize a.drop before = left, (y :: rest).take inside = right
      split
      · next final front first later hleft =>
        have turned : left.count z = (final :: front).count z := by
          rw [← hleft, List.count_reverse]
        simp only [List.count_cons] at turned
        split_ifs <;>
          simp_all only [count_mergeFront, count_mergeBack, Merge.count, List.count_append,
            List.count_reverse, List.count_cons, List.count_nil, List.isEmpty_iff] <;>
          omega
      · simp

/-- How often an element occurs in pending runs. -/
def stackCount (z : α) (runs : List (SortedRun α)) : ℕ :=
  (runs.map fun run => run.items.count z).sum

theorem stackCount_cons (z : α) (run : SortedRun α) (runs : List (SortedRun α)) :
    stackCount z (run :: runs) = run.items.count z + stackCount z runs := by
  simp [stackCount]

theorem stackCount_collapseBelow (lt : α → α → Bool) (z : α) (depth fuel : ℕ) (p : RunStack α) :
    stackCount z (collapseBelow lt depth fuel p).1 = stackCount z p.1 := by
  fun_induction collapseBelow lt depth fuel p <;>
    grind [stackCount_cons, count_mergeRuns]

theorem stackCount_pushRun (lt : α → α → Bool) (z : α) (size : ℕ) (p : RunStack α)
    (run : SortedRun α) :
    stackCount z (pushRun lt size p run).1 = stackCount z p.1 + run.items.count z := by
  unfold pushRun
  split
  · next h => simp [h, stackCount]
  · next last rest h =>
    have kept := fun depth => stackCount_collapseBelow lt z depth p.1.length p
    simp only
    split
    · next h' =>
      rw [← kept, h']
      simp only [stackCount_cons]
      omega
    · next h' =>
      rw [← kept, h']
      simp [stackCount]

theorem count_runs (z : α) (runs : List (SortedRun α)) :
    (runs.reverse.flatMap SortedRun.items).count z = stackCount z runs := by
  induction runs with
  | nil => rfl
  | cons run runs ih =>
    simp only [List.reverse_cons, List.flatMap_append, List.count_append, ih, stackCount_cons,
      List.flatMap_singleton]
    omega

theorem count_collapseAll (lt : α → α → Bool) (z : α) (fuel : ℕ) (p : RunStack α) :
    (collapseAll lt fuel p).count z = stackCount z p.1 := by
  fun_induction collapseAll lt fuel p <;>
    grind [stackCount_cons, count_mergeRuns, count_runs, stackCount]

/-- A run takes at least one element, so the fuel lasts for the whole list. -/
theorem stackCount_sortRuns (lt : α → α → Bool) (z : α) (size least fuel start : ℕ) (l : List α)
    (p : RunStack α) (hfuel : l.length ≤ fuel) :
    stackCount z (sortRuns lt size least fuel start l p).1 = stackCount z p.1 + l.count z := by
  induction fuel generalizing start l p with
  | zero =>
    have hl : l = [] := List.length_eq_zero_iff.mp (by omega)
    simp [sortRuns, hl]
  | succ fuel ih =>
    cases l with
    | nil => simp [sortRuns]
    | cons x rest =>
      have pos := naturalRun_length_pos lt (x :: rest) (by simp)
      have front := (naturalRun_perm lt (x :: rest)).count_eq z
      simp only [sortRuns]
      generalize naturalRun lt (x :: rest) = natural at pos front
      generalize hlength : max natural.length (min (x :: rest).length least) = length
      have hnatural : natural.length ≤ length := by omega
      have shorter : ((x :: rest).drop length).length ≤ fuel := by
        rw [List.length_drop]
        simp only [List.length_cons] at hfuel ⊢
        omega
      rw [ih _ _ _ shorter, stackCount_pushRun,
        (foldl_insertByHalving_perm lt _ natural).count_eq z, List.count_append, front]
      have cut : (x :: rest).take natural.length =
          ((x :: rest).take length).take natural.length := by
        rw [List.take_take, Nat.min_eq_left hnatural]
      rw [cut]
      have inner := congrArg (List.count z) (List.take_append_drop natural.length
        ((x :: rest).take length))
      have outer := congrArg (List.count z) (List.take_append_drop length (x :: rest))
      rw [List.count_append] at inner outer
      omega

end Counting

/-- Sorting only rearranges. -/
theorem stableSort_perm (lt : α → α → Bool) (l : List α) : (stableSort lt l).Perm l := by
  classical
  unfold stableSort
  simp only
  split
  · exact insertionSort_perm lt l
  · rw [List.perm_iff_count]
    intro z
    rw [sortByRuns, count_collapseAll, stackCount_sortRuns lt z _ _ _ _ l _ (Nat.le_refl _)]
    simp [stackCount]

end Chronoplan
