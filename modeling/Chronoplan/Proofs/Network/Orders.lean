import Mathlib.Data.List.Pairwise
import Chronoplan.Proofs.Network.Grouping

/-!
# Groups of rows in any order

The groups of a pass are the rows in order, cut without gap or overlap. Each group reads itself
and the middle row as it was before the pass, so two groups can be relaxed in either order, and a
closure that takes the groups of every pass in an order of its own ends as the plain closure does.
A sum that is too large is the only fault that a square matrix can meet; it is met in every order
or in none.
-/

set_option autoImplicit false

namespace Chronoplan
namespace Matrix

/-- The closure with the groups of pass `k` relaxed in the order `orders k`. -/
def closeInOrders (orders : ℕ → List (ℕ × ℕ)) (m : Matrix) : Except Fault Matrix :=
  (List.range m.length).foldlM (fun m k => passInGroups (orders k) m k) m

/-- All rows have a given number of cells. -/
def Wide (width : ℕ) (rows : Matrix) : Prop := ∀ row ∈ rows, row.length = width

instance (width : ℕ) (rows : Matrix) : Decidable (Wide width rows) :=
  inferInstanceAs (Decidable (∀ row ∈ rows, row.length = width))

/-- The numbers of the rows in a group. -/
def members (group : ℕ × ℕ) : List ℕ := List.range' group.1 (group.2 - group.1)

/-! ### The groups -/

theorem groupsFrom_members (width size start : ℕ) (hw : 0 < width) :
    (groupsFrom width size start).flatMap members = List.range' start (size - start) := by
  induction start using groupsFrom.induct width size with
  | case1 start h ih =>
    rw [groupsFrom, dif_pos h, List.flatMap_cons, ih, members]
    by_cases last : size ≤ start + width
    · rw [Nat.min_eq_right last, show size - (start + width) = 0 by omega, List.range'_zero,
        List.append_nil]
    · have parts : size - start = width + (size - (start + width)) := by omega
      rw [Nat.min_eq_left (by omega), Nat.add_sub_cancel_left, parts, List.range'_append_1]
  | case2 start h =>
    have empty : size - start = 0 := by omega
    rw [groupsFrom, dif_neg h, empty]
    rfl

theorem groups_members (workers : Int) (size : ℕ) :
    (groups workers size).flatMap members = List.range size := by
  rw [List.range_eq_range']
  by_cases some_row : 0 < size
  · exact groupsFrom_members _ size 0 (groupWidth_pos workers size some_row)
  · have none : size = 0 := by omega
    rw [none, groups, groupsFrom, dif_neg (by omega)]
    rfl

/-- The rows of a group lie within those that are left. -/
theorem groupsFrom_bounds (width size start : ℕ) :
    ∀ g ∈ groupsFrom width size start, start ≤ g.1 ∧ g.1 ≤ g.2 ∧ g.2 ≤ size := by
  induction start using groupsFrom.induct width size with
  | case1 start h ih =>
    rw [groupsFrom, dif_pos h, List.forall_mem_cons]
    constructor
    · exact ⟨Nat.le_refl _, by omega, Nat.min_le_right _ _⟩
    · intro g hg
      have later := ih g hg
      omega
  | case2 start h =>
    rw [groupsFrom, dif_neg h]
    simp

/-- One of the groups ends before the other begins. -/
def Apart (g h : ℕ × ℕ) : Prop := g.2 ≤ h.1 ∨ h.2 ≤ g.1

instance : Std.Symm Apart := ⟨fun _ _ => Or.symm⟩

theorem groupsFrom_apart (width size start : ℕ) :
    (groupsFrom width size start).Pairwise Apart := by
  induction start using groupsFrom.induct width size with
  | case1 start h ih =>
    rw [groupsFrom, dif_pos h, List.pairwise_cons]
    constructor
    · intro g hg
      have later := (groupsFrom_bounds width size (start + width) g hg).1
      exact .inl (Nat.le_trans (Nat.min_le_left _ _) later)
    · exact ih
  | case2 start h =>
    rw [groupsFrom, dif_neg h]
    exact .nil

/-! ### Faults and lengths -/

theorem relaxCells_length (d : Number) (middle row cells : List Number)
    (h : relaxCells d middle row = .ok cells) : cells.length = row.length := by
  induction middle generalizing row cells with
  | nil =>
    cases h
    rfl
  | cons x xs ih =>
    obtain ⟨candidate, -, h⟩ := (bind_eq_ok_iff _ _ _).mp h
    cases row with
    | nil => cases h
    | cons y ys =>
      obtain ⟨rest, hrest, h⟩ := (bind_eq_ok_iff _ _ _).mp h
      cases h
      rw [List.length_cons, List.length_cons, ih ys rest hrest]

theorem relaxCells_fault (d : Number) (middle row : List Number)
    (long : middle.length ≤ row.length) (e : Fault) (h : relaxCells d middle row = .error e) :
    e = .tooLarge := by
  induction middle generalizing row with
  | nil => cases h
  | cons x xs ih =>
    cases row with
    | nil => simp at long
    | cons y ys =>
      unfold relaxCells addNumbers at h
      cases hsum : d.add? x with
      | none =>
        rw [hsum] at h
        cases h
        rfl
      | some candidate =>
        simp only [hsum, orFault, ok_bind] at h
        cases hrest : relaxCells d xs ys with
        | ok rest =>
          rw [hrest] at h
          cases h
        | error e' =>
          rw [hrest] at h
          cases h
          exact ih ys (by simpa using long) hrest

theorem relaxRow_length (k : ℕ) (middle row cells : List Number)
    (h : relaxRow k middle row = .ok cells) : cells.length = row.length := by
  obtain ⟨d, -, h⟩ := (bind_eq_ok_iff _ _ _).mp h
  split at h
  · cases h
    rfl
  · exact relaxCells_length d middle row cells h

theorem relaxRow_fault (k : ℕ) (middle row : List Number) (hk : k < row.length)
    (long : middle.length ≤ row.length) (e : Fault) (h : relaxRow k middle row = .error e) :
    e = .tooLarge := by
  unfold relaxRow at h
  rw [List.getElem?_eq_getElem hk] at h
  simp only [orFault, ok_bind] at h
  split at h
  · cases h
  · exact relaxCells_fault _ middle row long e h

section Pass

variable (k width : ℕ) (middle : List Number) (hk : k < width) (hmiddle : middle.length = width)

include hk hmiddle in
theorem mapM_relaxRow_fault (rows : Matrix) (wide : Wide width rows) (e : Fault)
    (h : rows.mapM (relaxRow k middle) = .error e) : e = .tooLarge := by
  obtain ⟨row, hmem, hrow⟩ := error_of_mapM _ _ _ h
  have length := wide row hmem
  exact relaxRow_fault k middle row (by omega) (by omega) e hrow

theorem mapM_relaxRow_wide (rows relaxed : Matrix) (wide : Wide width rows)
    (h : rows.mapM (relaxRow k middle) = .ok relaxed) : Wide width relaxed := by
  intro cells hmem
  obtain ⟨row, hrow, hcells⟩ := mem_of_mapM _ _ _ h cells hmem
  rw [relaxRow_length k middle row cells hcells, wide row hrow]

theorem relaxRange_wide (m m' : Matrix) (g : ℕ × ℕ) (hg : g.1 ≤ g.2 ∧ g.2 ≤ m.length)
    (wide : Wide width m) (h : relaxRange k middle m g = .ok m') :
    Wide width m' ∧ m'.length = m.length := by
  rw [relaxRange_eq] at h
  obtain ⟨relaxed, hrelaxed, hm⟩ := (bind_eq_ok_iff _ _ _).mp h
  cases hm
  have length := mapM_length _ _ _ hrelaxed
  constructor
  · have part : Wide width ((m.take g.2).drop g.1) := fun row hrow =>
      wide row (List.mem_of_mem_take (List.mem_of_mem_drop hrow))
    intro row hrow
    rcases List.mem_append.mp hrow with front | back
    · rcases List.mem_append.mp front with first | second
      · exact wide row (List.mem_of_mem_take first)
      · exact mapM_relaxRow_wide k width middle _ _ part hrelaxed row second
    · exact wide row (List.mem_of_mem_drop back)
  · simp only [List.length_append, List.length_take, List.length_drop] at length ⊢
    omega

/-- A group between other rows is relaxed where it stands. -/
theorem relaxRange_middle (front part back : Matrix) :
    relaxRange k middle (front ++ (part ++ back)) (front.length, front.length + part.length)
      = (do return front ++ ((← part.mapM (relaxRow k middle)) ++ back)) := by
  rw [relaxRange_append, List.take_left, List.drop_left]
  simp

/-- Of two groups the earlier one first. -/
theorem relax_forward (a g b h c : Matrix) :
    (relaxRange k middle (a ++ (g ++ (b ++ (h ++ c)))) (a.length, a.length + g.length) >>=
        fun m => relaxRange k middle m
          (a.length + g.length + b.length, a.length + g.length + b.length + h.length))
      = (g.mapM (relaxRow k middle) >>= fun g' => h.mapM (relaxRow k middle) >>= fun h' =>
          .ok (a ++ (g' ++ (b ++ (h' ++ c))))) := by
  rw [relaxRange_middle, bind_assoc]
  cases hg : g.mapM (relaxRow k middle) with
  | error e => rfl
  | ok g' =>
    have length : a.length + g.length + b.length = (a ++ (g' ++ b)).length := by
      simp only [List.length_append, mapM_length _ _ _ hg]
      omega
    have shape : a ++ (g' ++ (b ++ (h ++ c))) = (a ++ (g' ++ b)) ++ (h ++ c) := by simp
    simp only [ok_bind, pure_eq_ok]
    rw [length, shape, relaxRange_middle]
    simp

/-- Of two groups the later one first. -/
theorem relax_backward (a g b h c : Matrix) :
    (relaxRange k middle (a ++ (g ++ (b ++ (h ++ c))))
          (a.length + g.length + b.length, a.length + g.length + b.length + h.length) >>=
        fun m => relaxRange k middle m (a.length, a.length + g.length))
      = (h.mapM (relaxRow k middle) >>= fun h' => g.mapM (relaxRow k middle) >>= fun g' =>
          .ok (a ++ (g' ++ (b ++ (h' ++ c))))) := by
  have length : a.length + g.length + b.length = (a ++ (g ++ b)).length := by
    simp only [List.length_append]
    omega
  have shape : a ++ (g ++ (b ++ (h ++ c))) = (a ++ (g ++ b)) ++ (h ++ c) := by simp
  rw [length, shape, relaxRange_middle, bind_assoc]
  cases h.mapM (relaxRow k middle) with
  | error e => rfl
  | ok h' =>
    have shape' : (a ++ (g ++ b)) ++ (h' ++ c) = a ++ (g ++ (b ++ (h' ++ c))) := by simp
    simp only [ok_bind, pure_eq_ok]
    rw [shape', relaxRange_middle]
    simp

theorem exists_split {α : Type} (l : List α) (n : ℕ) (h : n ≤ l.length) :
    ∃ front back, l = front ++ back ∧ front.length = n :=
  ⟨l.take n, l.drop n, (List.take_append_drop n l).symm, List.length_take_of_le h⟩

include hk hmiddle in
theorem relaxRange_comm_of_le (m : Matrix) (wide : Wide width m) (g h : ℕ × ℕ) (hg : g.1 ≤ g.2)
    (order : g.2 ≤ h.1) (hh : h.1 ≤ h.2) (inside : h.2 ≤ m.length) :
    (relaxRange k middle m g >>= fun m' => relaxRange k middle m' h) =
      (relaxRange k middle m h >>= fun m' => relaxRange k middle m' g) := by
  obtain ⟨start, finish⟩ := g
  obtain ⟨start', finish'⟩ := h
  simp only at hg order hh inside
  obtain ⟨a, rest, rfl, rfl⟩ := exists_split m start (by omega)
  simp only [List.length_append] at inside
  obtain ⟨g, rest, rfl, hglen⟩ := exists_split rest (finish - a.length) (by omega)
  simp only [List.length_append] at inside
  obtain ⟨b, rest, rfl, hblen⟩ := exists_split rest (start' - finish) (by omega)
  simp only [List.length_append] at inside
  obtain ⟨h, c, rfl, hhlen⟩ := exists_split rest (finish' - start') (by omega)
  obtain rfl : finish = a.length + g.length := by omega
  obtain rfl : start' = a.length + g.length + b.length := by omega
  obtain rfl : finish' = a.length + g.length + b.length + h.length := by omega
  rw [relax_forward, relax_backward]
  apply bind_comm_of_fault _ _ .tooLarge
  · apply mapM_relaxRow_fault k width middle hk hmiddle
    intro row hrow
    exact wide row (by simp [hrow])
  · apply mapM_relaxRow_fault k width middle hk hmiddle
    intro row hrow
    exact wide row (by simp [hrow])

include hk hmiddle in
/-- Two groups of a pass can be relaxed in either order. -/
theorem relaxRange_comm (m : Matrix) (wide : Wide width m) (g h : ℕ × ℕ)
    (hg : g.1 ≤ g.2 ∧ g.2 ≤ m.length) (hh : h.1 ≤ h.2 ∧ h.2 ≤ m.length) (apart : Apart g h) :
    (relaxRange k middle m g >>= fun m' => relaxRange k middle m' h) =
      (relaxRange k middle m h >>= fun m' => relaxRange k middle m' g) := by
  rcases apart with before | after
  · exact relaxRange_comm_of_le k width middle hk hmiddle m wide g h hg.1 before hh.1 hh.2
  · exact (relaxRange_comm_of_le k width middle hk hmiddle m wide h g hh.1 after hg.1 hg.2).symm

end Pass

/-! ### Passes -/

/-- A pass over a square matrix does not depend on the order of its groups. -/
theorem passInOrder_eq_pass (workers : Int) (m : Matrix) (square : Wide m.length m) (k : ℕ)
    (order : List (ℕ × ℕ)) (h : order.Perm (groups workers m.length)) :
    passInGroups order m k = m.pass k := by
  rw [← passInGroups_eq_pass workers m k]
  unfold passInGroups
  cases hmiddle : m[k]? with
  | none => rfl
  | some middle =>
    obtain ⟨hk, found⟩ := List.getElem?_eq_some_iff.mp hmiddle
    have length : middle.length = m.length := square middle (List.mem_of_getElem found)
    have bounds : ∀ g ∈ groups workers m.length, g.1 ≤ g.2 ∧ g.2 ≤ m.length :=
      fun g hg => (groupsFrom_bounds _ _ 0 g hg).2
    simp only [orFault, ok_bind]
    symm
    apply foldlM_perm (fun m' => Wide m.length m' ∧ m'.length = m.length) Apart
      (relaxRange k middle) Or.symm h.symm (groupsFrom_apart _ _ _)
    · rintro m' g hg m'' ⟨wide, same⟩ hrelax
      obtain ⟨wide', same'⟩ := relaxRange_wide k m.length middle m' m'' g
        (by rw [same]; exact bounds g hg) wide hrelax
      exact ⟨wide', same'.trans same⟩
    · rintro m' g hg g' hg' ⟨wide, same⟩ apart
      apply relaxRange_comm k m.length middle hk length m' wide g g' _ _ apart
      · rw [same]
        exact bounds g hg
      · rw [same]
        exact bounds g' hg'
    · exact ⟨square, rfl⟩

theorem pass_wide (width : ℕ) (m m' : Matrix) (k : ℕ) (wide : Wide width m)
    (h : m.pass k = .ok m') : Wide width m' := by
  rw [pass_eq] at h
  obtain ⟨middle, -, hrows⟩ := (bind_eq_ok_iff _ _ _).mp h
  exact mapM_relaxRow_wide k width middle m m' wide hrows

theorem passes_fault (m : Matrix) (ks : List ℕ) (inside : ∀ k ∈ ks, k < m.length)
    (square : Wide m.length m) (e : Fault) (h : ks.foldlM pass m = .error e) : e = .tooLarge := by
  induction ks generalizing m with
  | nil => cases h
  | cons k ks ih =>
    obtain ⟨hk, inside⟩ := List.forall_mem_cons.mp inside
    have middle := List.getElem?_eq_getElem hk
    rw [List.foldlM_cons] at h
    cases hpass : m.pass k with
    | error e' =>
      rw [hpass] at h
      cases h
      rw [pass_eq, middle] at hpass
      exact mapM_relaxRow_fault k m.length _ hk (square _ (List.getElem_mem hk)) m square e hpass
    | ok m' =>
      rw [hpass, ok_bind] at h
      have length := pass_length m m' k hpass
      rw [← length] at inside
      exact ih m' inside (length ▸ pass_wide m.length m m' k square hpass) h

/-- The closure of a square matrix can only stop at an integer that is too large. -/
theorem close_fault (m : Matrix) (square : Wide m.length m) (e : Fault) (h : m.close = .error e) :
    e = .tooLarge :=
  passes_fault m _ (fun _ hk => List.mem_range.mp hk) square e h

theorem relaxRange_groups_comm (workers : Int) (m : Matrix) (square : Wide m.length m) (k : ℕ)
    (hk : k < m.length) (middle : List Number) (length : middle.length = m.length) (g h : ℕ × ℕ)
    (hg : g ∈ groups workers m.length) (hh : h ∈ groups workers m.length) :
    (relaxRange k middle m g >>= fun m' => relaxRange k middle m' h) =
      (relaxRange k middle m h >>= fun m' => relaxRange k middle m' g) := by
  by_cases same : g = h
  · rw [same]
  · apply relaxRange_comm k m.length middle hk length m square
    · exact (groupsFrom_bounds _ _ 0 g hg).2
    · exact (groupsFrom_bounds _ _ 0 h hh).2
    · exact (groupsFrom_apart _ _ 0).forall hg hh same

/-- The groups of a square matrix are its rows, cut without gap or overlap. Any two of them can be
relaxed in either order, and for any number of workers the closure is the same in every order in
which the groups of each pass are relaxed. -/
theorem closeInOrders_eq_close (m : Matrix) (square : Wide m.length m) (workers : Int) :
    (groups workers m.length).flatMap members = List.range m.length ∧
      (∀ k < m.length, ∀ middle : List Number, middle.length = m.length →
        ∀ g ∈ groups workers m.length, ∀ h ∈ groups workers m.length,
          (relaxRange k middle m g >>= fun m' => relaxRange k middle m' h) =
            (relaxRange k middle m h >>= fun m' => relaxRange k middle m' g)) ∧
      m.closeInGroups workers = m.close ∧
      ∀ orders : ℕ → List (ℕ × ℕ),
        (∀ k < m.length, (orders k).Perm (groups workers m.length)) →
          m.closeInOrders orders = m.close := by
  refine ⟨groups_members workers m.length, ?_, closeInGroups_eq_close workers m, ?_⟩
  · intro k hk middle length g hg h hh
    exact relaxRange_groups_comm workers m square k hk middle length g h hg hh
  · intro orders h
    apply foldlM_congr fun m' => Wide m.length m' ∧ m'.length = m.length
    · rintro m' k hk ⟨wide, same⟩
      apply passInOrder_eq_pass workers m'
      · rw [same]
        exact wide
      · rw [same]
        exact h k (List.mem_range.mp hk)
    · rintro m' k - m'' ⟨wide, same⟩ hp
      exact ⟨pass_wide m.length m' m'' k wide hp, (pass_length m' m'' k hp).trans same⟩
    · exact ⟨square, rfl⟩

end Matrix

/-! ## Three rows and two workers

The last row is a group of its own. The first point is at a negative distance from itself. -/

namespace Triangle

def matrix : Matrix :=
  [[.int (-1), .int 4, .posInf], [.posInf, .int 0, .int (-2)], [.int 1, .posInf, .int 0]]

/-- The last group first, except in the second pass. -/
def orders (k : ℕ) : List (ℕ × ℕ) := if k = 1 then [(0, 2), (2, 3)] else [(2, 3), (0, 2)]

/-- Both orders of the groups lead to the plain closure. -/
theorem closed_in_orders :
    Matrix.Wide 3 matrix ∧ (∀ k < 3, (orders k).Perm (Matrix.groups 2 3)) ∧
      matrix.closeInOrders orders = matrix.close ∧ ∃ closed, matrix.close = .ok closed ∧
        closed.cell? 0 0 = some (.int (-2)) := by
  have square : Matrix.Wide 3 matrix := by decide
  have grouped : Matrix.groups 2 3 = [(0, 2), (2, 3)] := by decide +kernel
  have permuted : ∀ k < 3, (orders k).Perm (Matrix.groups 2 3) := by
    rw [grouped]
    decide
  exact ⟨square, permuted, (matrix.closeInOrders_eq_close square 2).2.2.2 orders permuted,
    _, rfl, rfl⟩

end Triangle

end Chronoplan
