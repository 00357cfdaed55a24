import Chronoplan.Value.Order

/-!
# Bounds on a distance in time

A bound is a pair of numbers between which a distance has to lie; a side without limit is
infinite. Two bounds on one distance intersect to the tighter number on each side.
-/

set_option autoImplicit false

namespace Chronoplan

structure Bound where
  lo : Number
  hi : Number
deriving DecidableEq

namespace Bound

def unbounded : Bound := ⟨.negInf, .posInf⟩

def toValue (b : Bound) : Value := .tuple [.num b.lo, .num b.hi]

/-- Two values form a bound when both are integers or binary64 numbers, neither is a NaN, some
finite distance can lie between them, and they are in order. -/
def ofValues? (lo hi : Value) : Except Fault (Option Bound) :=
  match lo, hi with
  | .num (.bool _), _ => .ok none
  | _, .num (.bool _) => .ok none
  | .num (.ratio _), _ => .ok none
  | _, .num (.ratio _) => .ok none
  | .num a, .num b => do
    let x ← a.toBinary64
    if x.isNaN then return none
    let y ← b.toBinary64
    if y.isNaN then return none
    if x = .posInf ∨ y = .negInf then return none
    return if a.le b then some ⟨a, b⟩ else none
  | _, _ => .ok none

def ofValues (lo hi : Value) : Except Fault Bound := do
  match ← ofValues? lo hi with
  | some b => return b
  | none => throw (.invalidBounds (.tuple [lo, hi]))

def negate (b : Bound) : Bound := ⟨b.hi.neg, b.lo.neg⟩

def meet (a b : Bound) : Bound := ⟨a.lo.max b.lo, a.hi.min b.hi⟩

def crossed (b : Bound) : Bool := b.hi.lt b.lo

def intersect (a b : Bound) : Option Bound :=
  let m := a.meet b
  if m.crossed then none else some m

/-- The intersection, or the first bound when there is none. -/
def tighten (a b : Bound) : Bound := (a.intersect b).getD a

def contains (b : Bound) (x : Number) : Bool := b.lo.le x && x.le b.hi

def same (a b : Bound) : Bool := a.lo.alike b.lo && a.hi.alike b.hi

end Bound

/-! ## Pairs of any values

The operations apply to whatever compares. A pair may then be any value with a first and a second
element, and what does not compare shows only where it is compared. -/

namespace Pair

def first (pair : Value) : Except Fault Value := pair.item (.int 0)

def second (pair : Value) : Except Fault Value := pair.item (.int 1)

def larger (a b : Value) : Except Fault Value := do return if ← a.lt b then b else a

def smaller (a b : Value) : Except Fault Value := do return if ← b.lt a then b else a

def negate (pair : Value) : Except Fault Value := do
  match ← pair.elements with
  | [lo, hi] => return .tuple [← hi.neg, ← lo.neg]
  | _ => throw .malformed

def intersect (a b : Value) : Except Fault (Option Value) := do
  let lo ← larger (← first a) (← first b)
  let hi ← smaller (← second a) (← second b)
  return if ← hi.lt lo then none else some (.tuple [lo, hi])

def tighten (a b : Value) : Except Fault Value := do return (← intersect a b).getD a

def contains (pair v : Value) : Except Fault Bool := do
  if ← (← first pair).le v then v.le (← second pair) else return false

end Pair

def Value.isFinite : Value → Except Fault Bool
  | .num n => do return !(← n.toBinary64).isInfinite
  | _ => .error .illTyped

end Chronoplan
