import Chronoplan.Network.Distance
import Chronoplan.Proofs.Faults

/-!
# Passes over groups of rows

A pass reads the middle row as it was before the pass, so relaxing the rows group by group gives
what relaxing all of them at once gives. The groups leave out no row and take none twice, however
many workers are asked for.
-/

set_option autoImplicit false

namespace Chronoplan
namespace Matrix

theorem relaxNext_eq (k : ℕ) (middle : List Number) (last : Option (List Number × List Number))
    (sound : ∀ before after, last = some (before, after) → relaxRow k middle before = .ok after)
    (row : List Number) : relaxNext k middle last row = relaxRow k middle row := by
  cases last with
  | none => rfl
  | some known =>
    simp only [relaxNext]
    split_ifs with same
    · rw [same, sound known.1 known.2 rfl]
    · rfl

/-- Rows that are alike are relaxed alike, so it makes no difference that only one of them is. -/
theorem relaxRows_eq_mapM (k : ℕ) (middle : List Number) (rows : Matrix) :
    relaxRows k middle rows = rows.mapM (relaxRow k middle) := by
  have relaxed : ∀ last : Option (List Number × List Number),
      (∀ before after, last = some (before, after) → relaxRow k middle before = .ok after) →
      relaxFrom k middle last rows = rows.mapM (relaxRow k middle) := by
    induction rows with
    | nil => exact fun _ _ => rfl
    | cons row rows ih =>
      intro last sound
      rw [relaxFrom, relaxNext_eq k middle last sound, List.mapM_cons]
      cases here : relaxRow k middle row with
      | error e => rfl
      | ok cells =>
        rw [ok_bind, ok_bind, ih (some (row, cells))]
        rintro _ _ ⟨⟩
        exact here
  exact relaxed none fun _ _ h => nomatch h

theorem pass_eq (m : Matrix) (k : ℕ) : m.pass k =
    orFault .indexOutOfRange m[k]? >>= fun middle => m.mapM (relaxRow k middle) := by
  simp only [pass, relaxRows_eq_mapM]

theorem relaxRange_eq (k : ℕ) (middle : List Number) (m : Matrix) (g : ℕ × ℕ) :
    relaxRange k middle m g = ((m.take g.2).drop g.1).mapM (relaxRow k middle) >>= fun relaxed =>
      .ok (m.take g.1 ++ relaxed ++ m.drop g.2) := by
  simp only [relaxRange, relaxRows_eq_mapM, pure_eq_ok]

theorem relaxRange_append (k : ℕ) (middle : List Number) (done todo : Matrix) (count : ℕ) :
    relaxRange k middle (done ++ todo) (done.length, done.length + count)
      = (do return done ++ (← (todo.take count).mapM (relaxRow k middle)) ++ todo.drop count) := by
  rw [relaxRange_eq]
  simp [List.take_length_add_append]

/-- The groups from row `start` on relax the rows from there on and leave the earlier ones. -/
theorem foldlM_groupsFrom (k : ℕ) (middle : List Number) (width size start : ℕ)
    (done todo : Matrix) (hw : 0 < width) (hdone : done.length = min start size)
    (hsize : (done ++ todo).length = size) :
    (groupsFrom width size start).foldlM (relaxRange k middle) (done ++ todo)
      = (do return done ++ (← todo.mapM (relaxRow k middle))) := by
  rw [List.length_append] at hsize
  induction start using groupsFrom.induct width size generalizing done todo with
  | case1 start h ih =>
    obtain ⟨count, hc⟩ : ∃ count, min (start + width) size = done.length + count :=
      ⟨min (start + width) size - done.length, by omega⟩
    have first : start = done.length := by omega
    rw [groupsFrom, dif_pos h, List.foldlM_cons, hc, first, relaxRange_append]
    rw [← first]
    have parts : todo.mapM (relaxRow k middle)
        = (do return (← (todo.take count).mapM (relaxRow k middle))
            ++ (← (todo.drop count).mapM (relaxRow k middle))) := by
      rw [← List.mapM_append, List.take_append_drop]
    rw [parts]
    cases hrows : (todo.take count).mapM (relaxRow k middle) with
    | error e => rfl
    | ok rows =>
      have length := mapM_length _ _ _ hrows
      rw [List.length_take] at length
      have next := ih (done ++ rows) (todo.drop count) (by rw [List.length_append]; omega)
        (by rw [List.length_append, List.length_drop]; omega)
      simp only [ok_bind, pure_eq_ok, next]
      cases (todo.drop count).mapM (relaxRow k middle) with
      | error e => rfl
      | ok later => simp
  | case2 start h =>
    have none : todo = [] := List.eq_nil_of_length_eq_zero (by omega)
    rw [groupsFrom, dif_neg h, none]
    simp

/-- Where there are rows, the groups have at least one each. -/
theorem groupWidth_pos (workers : Int) (size : ℕ) (h : 0 < size) :
    0 < (size + (max 1 (min workers size)).toNat - 1) / (max 1 (min workers size)).toNat := by
  have count_pos : 0 < (max 1 (min workers size)).toNat := by omega
  have count_le : (max 1 (min workers size)).toNat ≤ size := by omega
  exact Nat.div_pos (by omega) count_pos

theorem passInGroups_eq_pass (workers : Int) (m : Matrix) (k : ℕ) :
    passInGroups (groups workers m.length) m k = pass m k := by
  rw [passInGroups, pass_eq]
  cases hk : m[k]? with
  | none => rfl
  | some middle =>
    have some_row : 0 < m.length := by
      obtain ⟨h, -⟩ := List.getElem?_eq_some_iff.mp hk
      omega
    have all := foldlM_groupsFrom k middle _ m.length 0 [] m (groupWidth_pos workers _ some_row)
      (by simp) (by simp)
    simp only [orFault, ok_bind, List.nil_append, bind_pure] at all ⊢
    exact all

theorem pass_length (m m' : Matrix) (k : ℕ) (h : m.pass k = .ok m') : m'.length = m.length := by
  rw [pass_eq] at h
  obtain ⟨middle, -, hrows⟩ := (bind_eq_ok_iff _ _ _).mp h
  exact mapM_length _ _ _ hrows

/-- The closure does not depend on how many workers relax its rows. -/
theorem closeInGroups_eq_close (workers : Int) (m : Matrix) : m.closeInGroups workers = m.close := by
  apply foldlM_congr fun m' => m'.length = m.length
  · intro m' k _ hm
    rw [← hm]
    exact passInGroups_eq_pass workers m' k
  · intro m' k _ m'' hm hp
    rw [pass_length m' m'' k hp, hm]
  · rfl

end Matrix
end Chronoplan
