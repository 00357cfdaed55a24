import Chronoplan.Number.Rounding

/-!
# Binary64 numbers

A finite binary64 other than negative zero is the rational number it denotes. A sum is then exact
rational arithmetic followed by one rounding to 53 bits, ties to even; beyond the largest finite
number it becomes infinite. Nothing here rests on the machine's own floating point.

A NaN equals nothing, yet a container recognises one that it already holds. Each NaN therefore
carries a mark of where it comes from, and a positive mark identifies it; a NaN of mark 0 is
recognised nowhere.
-/

set_option autoImplicit false

namespace Chronoplan

inductive Binary64
  | nan (mark : Nat)
  | negInf
  | posInf
  | negZero
  | finite (q : Rat)
deriving DecidableEq

namespace Binary64

def unitExponent (n d : Nat) : Int :=
  let guess : Int := (Nat.log2 n : Int) - Nat.log2 d - 52
  let large : Bool :=
    if guess ≥ 0 then n ≥ d * Nat.pow 2 (guess.toNat + 52)
    else n * Nat.pow 2 (-guess).toNat ≥ d * Nat.pow 2 52
  max (if large then guess else guess - 1) (-1074)

/-- The binary64 nearest to a nonnegative quotient, ties to even. -/
def ofQuotient (n d : Nat) : Binary64 :=
  if n = 0 then .finite 0 else
  let e := unitExponent n d
  if e ≥ 0 then
    let m := divRound .even n (d * Nat.pow 2 e.toNat) * Nat.pow 2 e.toNat
    if m ≥ Nat.pow 2 1024 then .posInf else .finite (m : Rat)
  else
    .finite (mkRat (divRound .even (n * Nat.pow 2 (-e).toNat) d) (Nat.pow 2 (-e).toNat))

def neg : Binary64 → Binary64
  | .nan _ => .nan 0
  | .negInf => .posInf
  | .posInf => .negInf
  | .negZero => .finite 0
  | .finite q => if q = 0 then .negZero else .finite (-q)

def ofRat (q : Rat) : Binary64 :=
  let x := ofQuotient q.num.natAbs q.den
  if q.num < 0 then x.neg else x

def add : Binary64 → Binary64 → Binary64
  | .nan _, _ => .nan 0
  | _, .nan _ => .nan 0
  | .posInf, .negInf => .nan 0
  | .negInf, .posInf => .nan 0
  | .posInf, _ => .posInf
  | _, .posInf => .posInf
  | .negInf, _ => .negInf
  | _, .negInf => .negInf
  | .negZero, y => y
  | x, .negZero => x
  | .finite a, .finite b => ofRat (a + b)

def sub (x y : Binary64) : Binary64 := x.add y.neg

def isNaN : Binary64 → Bool
  | .nan _ => true
  | _ => false

def sameNaN : Binary64 → Binary64 → Bool
  | .nan m, .nan n => m == n && m != 0
  | _, _ => false

def isInfinite : Binary64 → Bool
  | .posInf => true
  | .negInf => true
  | _ => false

def toRat? : Binary64 → Option Rat
  | .negZero => some 0
  | .finite q => some q
  | _ => none

theorem neg_neg (x : Binary64) (h : x.isNaN = false) : x.neg.neg = x := by
  cases x with
  | nan m => simp [isNaN] at h
  | finite q =>
    by_cases h : q = 0
    · simp [neg, h]
    · have h' : -q ≠ 0 := fun c => h (by rw [← Rat.neg_neg q, c]; rfl)
      simp [neg, h, h']
  | _ => simp [neg]

end Binary64

end Chronoplan
