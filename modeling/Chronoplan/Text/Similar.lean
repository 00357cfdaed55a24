import Chronoplan.Sorting

/-!
# Similar words

Two words are compared by their longest common block, then by the longest common blocks on either
side of it, and so on. The share of the characters in such blocks says how similar the words are.
-/

set_option autoImplicit false

namespace Chronoplan

namespace Similar

structure Block where
  left : Nat
  right : Nat
  length : Nat

def commonLength : List Char → List Char → Nat
  | a :: as, b :: bs => if a == b then commonLength as bs + 1 else 0
  | _, _ => 0

def longestBlock (a b : List Char) : Block :=
  let places := (List.range a.length).flatMap fun i => (List.range b.length).map fun j => (i, j)
  places.foldl (fun best p =>
    let n := commonLength (a.drop p.1) (b.drop p.2)
    if n > best.length then { left := p.1, right := p.2, length := n } else best)
    { left := 0, right := 0, length := 0 }

/-- The number of characters in common blocks. The bound is the length of the first word. -/
def matched : Nat → List Char → List Char → Nat
  | 0, _, _ => 0
  | n + 1, a, b =>
    let k := longestBlock a b
    if k.length = 0 then 0
    else
      matched n (a.take k.left) (b.take k.right) + k.length
        + matched n (a.drop (k.left + k.length)) (b.drop (k.right + k.length))

def share (a b : String) : Nat × Nat :=
  (2 * matched a.length a.toList b.toList, a.length + b.length)

def isClose (s : Nat × Nat) : Bool := 5 * s.1 ≥ 3 * s.2

def higher (x y : (Nat × Nat) × String) : Bool :=
  y.1.1 * x.1.2 < x.1.1 * y.1.2 || (y.1.1 * x.1.2 == x.1.1 * y.1.2 && y.2 < x.2)

def closeWords (word : String) (words : List String) : List String :=
  let close := (words.map fun w => (share w word, w)).filter fun e => isClose e.1
  ((insertionSort higher close).take 3).map Prod.snd

end Similar

end Chronoplan
