import Chronoplan.Sorting

/-!
# Sorting elements that may not compare

For a strict weak order all stable sorts agree, and `stableSort` is plain insertion. Where some
elements compare with nothing, as a NaN does, the outcome depends on which elements are compared
and in which order. Short lists are then sorted by insertion all the same; a longer list is cut
into runs of a least length, and neighbouring runs are merged in the order of a binary tree over
the positions. A merge takes elements one at a time until one side wins often in a row, and then
looks ahead in growing steps for the end of the winning block.
-/

set_option autoImplicit false

namespace Chronoplan

variable {α : Type}

/-! ## Order -/

def ranked (lt : α → α → Bool) (rank : Nat) : List α → List (α × Nat)
  | [] => []
  | [x] => [(x, rank)]
  | x :: y :: r => (x, rank) :: ranked lt (if lt x y then rank + 1 else rank) (y :: r)

def ranksDecide (lt : α → α → Bool) : List (α × Nat) → Bool
  | [] => true
  | (x, rank) :: r =>
    (r.all fun e => !lt e.1 x && lt x e.1 == decide (rank < e.2)) && ranksDecide lt r

def isOrderly (lt : α → α → Bool) (l : List α) : Bool := ranksDecide lt (ranked lt 0 l)

/-! ## Looking ahead -/

def probe (stop : Nat → Bool) (limit : Nat) : Nat → Nat → Nat → Nat × Nat
  | 0, last, offset => (last, min offset limit)
  | n + 1, last, offset =>
    if offset < limit && !stop offset then probe stop limit n offset (2 * offset + 1)
    else (last, min offset limit)

def bisect (test : Nat → Bool) : Nat → Nat → Nat → Nat
  | 0, _, high => high
  | n + 1, low, high =>
    if low < high then
      let middle := low + (high - low) / 2
      if test middle then bisect test n (middle + 1) high else bisect test n low middle
    else high

def frontier (test : Nat → Bool) (size hint : Nat) : Nat :=
  if test hint then
    let (last, next) := probe (fun i => !test (hint + i)) (size - hint) size 0 1
    bisect test (size + 1) (hint + last + 1) (hint + next)
  else
    let (last, next) := probe (fun i => test (hint - i)) (hint + 1) size 0 1
    bisect test (size + 1) (hint + 1 - next) (hint - last)

def placeBehind (lt : α → α → Bool) (key : α) (block : List α) (hint : Nat) : Nat :=
  let a := block.toArray
  frontier (fun i => (a[i]?).elim false fun x => !lt key x) a.size hint

def placeBefore (lt : α → α → Bool) (key : α) (block : List α) (hint : Nat) : Nat :=
  let a := block.toArray
  frontier (fun i => (a[i]?).elim false fun x => lt x key) a.size hint

/-! ## Merging -/

def leastWins : Nat := 7

structure Merge (α : Type) where
  merged : List α
  left : List α
  right : List α

/-- The merge from the front. The numbers are the wins in a row of either side and the number
that starts looking ahead, which is handed on to the next merge. -/
def mergeFront (lt : α → α → Bool) : Nat → Bool → Nat → Nat → Nat → Merge α → List α × Nat
  | 0, _, _, _, least, m => (m.merged.reverse ++ m.left ++ m.right, least)
  | n + 1, false, wonLeft, wonRight, least, m =>
    match m.left, m.right with
    | [], right => (m.merged.reverse ++ right, least)
    | left, [] => (m.merged.reverse ++ left, least)
    | x :: left, y :: right =>
      if lt y x then
        let next : Merge α := { m with merged := y :: m.merged, right }
        if right.isEmpty then (next.merged.reverse ++ next.left, least)
        else if wonRight + 1 ≥ least then mergeFront lt n true 0 0 (least + 1) next
        else mergeFront lt n false 0 (wonRight + 1) least next
      else
        let next : Merge α := { m with merged := x :: m.merged, left }
        if left.length = 1 then (next.merged.reverse ++ next.right ++ next.left, least)
        else if wonLeft + 1 ≥ least then mergeFront lt n true 0 0 (least + 1) next
        else mergeFront lt n false (wonLeft + 1) 0 least next
  | n + 1, true, _, _, least, m =>
    let least := if least > 1 then least - 1 else least
    match m.right with
    | [] => (m.merged.reverse ++ m.left, least)
    | y :: right =>
      let taken := placeBehind lt y m.left 0
      let merged := (m.left.take taken).reverse ++ m.merged
      let left := m.left.drop taken
      if taken > 0 && left.length = 1 then (merged.reverse ++ m.right ++ left, least)
      else if left.isEmpty then (merged.reverse ++ m.right, least)
      else if right.isEmpty then ((y :: merged).reverse ++ left, least)
      else
        match left with
        | [] => ((y :: merged).reverse ++ right, least)
        | x :: rest =>
          let also := placeBefore lt x right 0
          let merged := (right.take also).reverse ++ y :: merged
          let right := right.drop also
          if right.isEmpty then (merged.reverse ++ left, least)
          else if rest.length = 1 then ((x :: merged).reverse ++ right ++ rest, least)
          else
            let next : Merge α := { merged := x :: merged, left := rest, right }
            if taken ≥ leastWins || also ≥ leastWins then mergeFront lt n true 0 0 least next
            else mergeFront lt n false 0 0 (least + 1) next

def mergeBack (lt : α → α → Bool) : Nat → Bool → Nat → Nat → Nat → Merge α → List α × Nat
  | 0, _, _, _, least, m => (m.left.reverse ++ m.right.reverse ++ m.merged, least)
  | n + 1, false, wonLeft, wonRight, least, m =>
    match m.left, m.right with
    | [], right => (right.reverse ++ m.merged, least)
    | left, [] => (left.reverse ++ m.merged, least)
    | x :: left, y :: right =>
      if lt y x then
        let next : Merge α := { m with merged := x :: m.merged, left }
        if left.isEmpty then (next.right.reverse ++ next.merged, least)
        else if wonLeft + 1 ≥ least then mergeBack lt n true 0 0 (least + 1) next
        else mergeBack lt n false (wonLeft + 1) 0 least next
      else
        let next : Merge α := { m with merged := y :: m.merged, right }
        if right.length = 1 then (next.right ++ next.left.reverse ++ next.merged, least)
        else if wonRight + 1 ≥ least then mergeBack lt n true 0 0 (least + 1) next
        else mergeBack lt n false 0 (wonRight + 1) least next
  | n + 1, true, _, _, least, m =>
    let least := if least > 1 then least - 1 else least
    match m.right with
    | [] => (m.left.reverse ++ m.merged, least)
    | y :: right =>
      let size := m.left.length
      let taken := size - placeBehind lt y m.left.reverse (size - 1)
      let merged := (m.left.take taken).reverse ++ m.merged
      let left := m.left.drop taken
      if left.isEmpty then (m.right.reverse ++ merged, least)
      else if right.length = 1 then (right ++ left.reverse ++ y :: merged, least)
      else
        match left with
        | [] => (right.reverse ++ y :: merged, least)
        | x :: rest =>
          let also := right.length - placeBefore lt x right.reverse (right.length - 1)
          let merged := (right.take also).reverse ++ y :: merged
          let right := right.drop also
          if also > 0 && right.length = 1 then (right ++ left.reverse ++ merged, least)
          else if right.isEmpty then (left.reverse ++ merged, least)
          else if rest.isEmpty then (right.reverse ++ x :: merged, least)
          else
            let next : Merge α := { merged := x :: merged, left := rest, right }
            if taken ≥ leastWins || also ≥ leastWins then mergeBack lt n true 0 0 least next
            else mergeBack lt n false 0 0 (least + 1) next

/-- Two neighbouring runs as one. What already stands before or behind everything else is left
in its place, and the shorter of the remaining blocks is the one that is moved. -/
def mergeRuns (lt : α → α → Bool) (least : Nat) (a b : List α) : List α × Nat :=
  match b with
  | [] => (a, least)
  | y :: _ =>
    let before := placeBehind lt y a 0
    let left := a.drop before
    match left.getLast? with
    | none => (a ++ b, least)
    | some x =>
      let inside := placeBefore lt x b (b.length - 1)
      let right := b.take inside
      let fuel := 2 * (left.length + right.length) + 2
      let (middle, least) :=
        match left.reverse, right with
        | x :: front, z :: rest =>
          if left.length ≤ right.length then
            if rest.isEmpty then (z :: left, least)
            else if left.length = 1 then (right ++ left, least)
            else mergeFront lt fuel false 0 0 least { merged := [z], left, right := rest }
          else if front.isEmpty then (right ++ [x], least)
          else if right.length = 1 then (right ++ left, least)
          else
            mergeBack lt fuel false 0 0 least
              { merged := [x], left := front, right := right.reverse }
        | _, _ => (left ++ right, least)
      (a.take before ++ middle ++ b.drop inside, least)

/-! ## Runs -/

structure SortedRun (α : Type) where
  start : Nat
  items : List α
  power : Nat

/-- The depth at which the midpoints of two neighbouring runs part in a binary tree over all
positions; the midpoints are given doubled. -/
def partingDepth (size : Nat) : Nat → Nat → Nat → Nat
  | 0, _, _ => 0
  | n + 1, a, b =>
    if a ≥ size then 1 + partingDepth size n (2 * (a - size)) (2 * (b - size))
    else if b ≥ size then 1
    else 1 + partingDepth size n (2 * a) (2 * b)

abbrev RunStack (α : Type) := List (SortedRun α) × Nat

def collapseBelow (lt : α → α → Bool) (depth : Nat) : Nat → RunStack α → RunStack α
  | 0, p => p
  | n + 1, (b :: a :: rest, least) =>
    if a.power > depth then
      let (items, least) := mergeRuns lt least a.items b.items
      collapseBelow lt depth n ({ a with items } :: rest, least)
    else (b :: a :: rest, least)
  | _, p => p

def pushRun (lt : α → α → Bool) (size : Nat) (p : RunStack α) (run : SortedRun α) : RunStack α :=
  match p.1 with
  | [] => ([run], p.2)
  | last :: _ =>
    let a := 2 * last.start + last.items.length
    let depth := partingDepth size (size + 1) a (a + last.items.length + run.items.length)
    match collapseBelow lt depth p.1.length p with
    | (last :: rest, least) => (run :: { last with power := depth } :: rest, least)
    | ([], least) => ([run], least)

def collapseAll (lt : α → α → Bool) : Nat → RunStack α → List α
  | _, ([], _) => []
  | 0, (runs, _) => runs.reverse.flatMap SortedRun.items
  | _, ([run], _) => run.items
  | n + 1, (c :: b :: a :: rest, least) =>
    if a.items.length < c.items.length then
      let (items, least) := mergeRuns lt least a.items b.items
      collapseAll lt n (c :: { a with items } :: rest, least)
    else
      let (items, least) := mergeRuns lt least b.items c.items
      collapseAll lt n ({ b with items } :: a :: rest, least)
  | n + 1, ([b, a], least) =>
    let (items, least) := mergeRuns lt least a.items b.items
    collapseAll lt n ([{ a with items }], least)

def leastRun : Nat → Nat → Nat → Nat
  | 0, size, _ => size
  | n + 1, size, lost =>
    if size < 64 then size + lost
    else leastRun n (size / 2) (if size % 2 = 1 then 1 else lost)

def naturalRun (lt : α → α → Bool) : List α → List α
  | [] => []
  | [x] => [x]
  | x :: y :: r =>
    if lt y x then (x :: (fallingRun lt x (y :: r)).1).reverse
    else x :: (risingRun lt x (y :: r)).1

def sortRuns (lt : α → α → Bool) (size least : Nat) :
    Nat → Nat → List α → RunStack α → RunStack α
  | 0, _, _, p => p
  | _, _, [], p => p
  | n + 1, start, l, p =>
    let natural := naturalRun lt l
    let length := max natural.length (min l.length least)
    let items := ((l.take length).drop natural.length).foldl
      (fun sorted x => insertByHalving lt x sorted) natural
    sortRuns lt size least n (start + length) (l.drop length)
      (pushRun lt size p { start, items, power := 0 })

def sortByRuns (lt : α → α → Bool) (l : List α) : List α :=
  let size := l.length
  let p := sortRuns lt size (leastRun size size 0) size 0 l ([], leastWins)
  collapseAll lt p.1.length p

/-- A stable sort by an order in which elements may fail to compare. -/
def stableSort (lt : α → α → Bool) (l : List α) : List α :=
  let inserted := insertionSort lt l
  if l.length < 64 || isOrderly lt inserted then inserted else sortByRuns lt l

end Chronoplan
