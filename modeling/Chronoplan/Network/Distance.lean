import Chronoplan.Network.Bound

/-!
# Distance matrices and their closure

Cell `(i, j)` of a distance matrix is an upper bound on the time from point `i` to point `j`. A
bound on a pair of points gives two cells, its upper number in one direction and its negated
lower number in the other. The closure replaces every cell by the length of a shortest path: pass
`k` relaxes every row through point `k`, against row `k` as it was before the pass, so the rows
of a pass do not depend on each other and can be relaxed in any grouping. The constraints have a
solution exactly when no diagonal cell of the closure is negative.
-/

set_option autoImplicit false

namespace Chronoplan

abbrev Matrix := List (List Number)

abbrev Constraints := Table (String × String) Bound

def addNumbers (a b : Number) : Except Fault Number := orFault .tooLarge (a.add? b)

def subNumbers (a b : Number) : Except Fault Number := orFault .tooLarge (a.sub? b)

namespace Matrix

def blank (n : Nat) : Matrix :=
  (List.range n).map fun i =>
    (List.range n).map fun j => if i = j then .int 0 else .posInf

def cell? (m : Matrix) (i j : Nat) : Option Number := m[i]? >>= fun row => row[j]?

def lower (m : Matrix) (i j : Nat) (x : Number) : Matrix :=
  m.modify i fun row => row.modify j fun old => if x.lt old then x else old

/-- The place of a point; of several points of one name the last counts. -/
def place? (points : List String) (p : String) : Option Nat :=
  (points.reverse.findIdx? (· == p)).map fun i => points.length - 1 - i

def enter (points : List String) (m : Matrix) (entry : (String × String) × Bound) : Matrix :=
  match place? points entry.1.1, place? points entry.1.2 with
  | some i, some j => (m.lower i j entry.2.hi).lower j i entry.2.lo.neg
  | _, _ => m

def build (points : List String) (constraints : Constraints) : Matrix :=
  constraints.foldl (enter points) (blank points.length)

def relaxCells (d : Number) : List Number → List Number → Except Fault (List Number)
  | [], row => .ok row
  | x :: xs, row => do
    let candidate ← addNumbers d x
    match row with
    | [] => throw .indexOutOfRange
    | y :: ys =>
      let rest ← relaxCells d xs ys
      return (if candidate.lt y then candidate else y) :: rest

def relaxRow (k : Nat) (middle row : List Number) : Except Fault (List Number) := do
  let d ← orFault .indexOutOfRange row[k]?
  if d.eq .posInf then return row
  relaxCells d middle row

/-- A row like the last one comes out like the last one. -/
def relaxNext (k : Nat) (middle : List Number) (last : Option (List Number × List Number))
    (row : List Number) : Except Fault (List Number) :=
  match last with
  | some (before, after) => if row = before then .ok after else relaxRow k middle row
  | none => relaxRow k middle row

def relaxFrom (k : Nat) (middle : List Number) (last : Option (List Number × List Number)) :
    Matrix → Except Fault Matrix
  | [] => .ok []
  | row :: rows => do
    let relaxed ← relaxNext k middle last row
    return relaxed :: (← relaxFrom k middle (some (row, relaxed)) rows)

def relaxRows (k : Nat) (middle : List Number) (rows : Matrix) : Except Fault Matrix :=
  relaxFrom k middle none rows

def pass (m : Matrix) (k : Nat) : Except Fault Matrix := do
  let middle ← orFault .indexOutOfRange m[k]?
  relaxRows k middle m

def close (m : Matrix) : Except Fault Matrix := (List.range m.length).foldlM pass m

def relaxRange (k : Nat) (middle : List Number) (m : Matrix) (range : Nat × Nat) :
    Except Fault Matrix := do
  let relaxed ← relaxRows k middle ((m.take range.2).drop range.1)
  return m.take range.1 ++ relaxed ++ m.drop range.2

/-- Pass `k` over groups of rows, one group after the other. -/
def passInGroups (groups : List (Nat × Nat)) (m : Matrix) (k : Nat) : Except Fault Matrix := do
  let middle ← orFault .indexOutOfRange m[k]?
  groups.foldlM (relaxRange k middle) m

def groupsFrom (width size start : Nat) : List (Nat × Nat) :=
  if _h : start < size ∧ 0 < width then
    (start, min (start + width) size) :: groupsFrom width size (start + width)
  else []
termination_by size - start

def groups (workers : Int) (size : Nat) : List (Nat × Nat) :=
  let count := (max 1 (min workers size)).toNat
  groupsFrom ((size + count - 1) / count) size 0

def closeInGroups (workers : Int) (m : Matrix) : Except Fault Matrix :=
  (List.range m.length).foldlM (passInGroups (groups workers m.length)) m

end Matrix

structure Report where
  points : List String
  closure : Matrix
  negative : List String

namespace Report

def consistent (r : Report) : Bool := r.negative.isEmpty

def reason (r : Report) : Option String :=
  if r.consistent then none
  else some ("Negative cycle through time points: " ++ ", ".intercalate r.negative)

def derived (r : Report) (a b : String) : Except Fault Bound := do
  let i ← orFault .unknownKey (Matrix.place? r.points a)
  let j ← orFault .unknownKey (Matrix.place? r.points b)
  let back ← orFault .indexOutOfRange (r.closure.cell? j i)
  let forth ← orFault .indexOutOfRange (r.closure.cell? i j)
  return ⟨back.neg, forth⟩

end Report

def negativePoints (points : List String) (closure : Matrix) : List String :=
  (points.zipIdx.filter fun p =>
    match closure.cell? p.2 p.2 with
    | some x => x.lt (.int 0)
    | none => false).map Prod.fst

def checkConsistency (points : List String) (constraints : Constraints) (parallel : Bool)
    (workers : Int) : Except Fault Report := do
  let built := Matrix.build points constraints
  let closure ← if parallel then built.closeInGroups workers else built.close
  return { points, closure, negative := negativePoints points closure }

end Chronoplan
