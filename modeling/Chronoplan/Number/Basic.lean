import Chronoplan.Number.Binary64

/-!
# Numbers of the inputs

A number is a truth value, an integer of any size, a binary64 or an exact fraction. Order and
equality are those of the exact values, so nothing is rounded before it is compared. Sums stay
exact as long as no binary64 takes part; otherwise the exact side is rounded to binary64 first,
and there is no sum when it is too large for that.
-/

set_option autoImplicit false

namespace Chronoplan

/-- A truth value counts as 0 or 1 and keeps its own spelling. -/
inductive Number
  | bool (b : Bool)
  | int (n : Int)
  | float (x : Binary64)
  | ratio (q : Rat)
deriving DecidableEq

inductive Place
  | bot
  | line (q : Rat)
  | top
deriving DecidableEq

namespace Place

def lt : Place → Place → Bool
  | .bot, .bot => false
  | .bot, _ => true
  | .line _, .bot => false
  | .line p, .line q => decide (p < q)
  | .line _, .top => true
  | .top, _ => false

end Place

namespace Number

abbrev posInf : Number := .float .posInf

abbrev negInf : Number := .float .negInf

def toInt? : Number → Option Int
  | .bool b => some (if b then 1 else 0)
  | .int n => some n
  | .float _ => none
  | .ratio _ => none

def exactValue? : Number → Option Rat
  | .bool b => some (if b then 1 else 0)
  | .int n => some n
  | .float _ => none
  | .ratio q => some q

def place? : Number → Option Place
  | .bool b => some (.line (if b then 1 else 0))
  | .int n => some (.line n)
  | .float (.nan _) => none
  | .float .negInf => some .bot
  | .float .posInf => some .top
  | .float .negZero => some (.line 0)
  | .float (.finite q) => some (.line q)
  | .ratio q => some (.line q)

def lt (a b : Number) : Bool :=
  match a, b with
  | .int m, .int n => decide (m < n)
  | _, _ =>
    match a.place?, b.place? with
    | some p, some q => p.lt q
    | _, _ => false

def eq (a b : Number) : Bool :=
  match a, b with
  | .int m, .int n => decide (m = n)
  | _, _ =>
    match a.place?, b.place? with
    | some p, some q => decide (p = q)
    | _, _ => false

def le (a b : Number) : Bool := a.lt b || a.eq b

def max (a b : Number) : Number := if a.lt b then b else a

def min (a b : Number) : Number := if b.lt a then b else a

def neg : Number → Number
  | .bool b => .int (if b then -1 else 0)
  | .int n => .int (-n)
  | .float x => .float x.neg
  | .ratio q => .ratio (-q)

def toBinary64? : Number → Option Binary64
  | .bool b => some (.finite (if b then 1 else 0))
  | .int n => nearest n
  | .float x => some x
  | .ratio q => nearest q
where
  nearest (q : Rat) : Option Binary64 :=
    match Binary64.ofRat q with
    | .posInf => none
    | .negInf => none
    | x => some x

/-- Sums and the like: exact on integers, exact on fractions, and else on binary64 numbers; none
when an exact number has to become a binary64 and is too large for one. -/
def combine? (onInt : Int → Int → Int) (onRat : Rat → Rat → Rat)
    (onFloat : Binary64 → Binary64 → Binary64) (a b : Number) : Option Number :=
  match a.toInt?, b.toInt? with
  | some m, some n => some (.int (onInt m n))
  | _, _ =>
    match a.exactValue?, b.exactValue? with
    | some p, some q => some (.ratio (onRat p q))
    | _, _ => do return .float (onFloat (← a.toBinary64?) (← b.toBinary64?))

def add? (a b : Number) : Option Number :=
  match a, b with
  | .int m, .int n => some (.int (m + n))
  | _, _ => combine? (· + ·) (· + ·) Binary64.add a b

def sub? (a b : Number) : Option Number :=
  match a, b with
  | .int m, .int n => some (.int (m - n))
  | _, _ => combine? (· - ·) (· - ·) Binary64.sub a b

def isNaN : Number → Bool
  | .float x => x.isNaN
  | _ => false

def isInfinite : Number → Bool
  | .float x => x.isInfinite
  | _ => false

def isZero (a : Number) : Bool := a.eq (.int 0)

/-- Equality inside a container, where a NaN is the same as itself. -/
def alike (a b : Number) : Bool :=
  a.eq b || (match a, b with
    | .float x, .float y => x.sameNaN y
    | _, _ => false)

@[simp] theorem lt_int (m n : Int) : lt (.int m) (.int n) = decide (m < n) := rfl

@[simp] theorem eq_int (m n : Int) : eq (.int m) (.int n) = decide (m = n) := rfl

@[simp] theorem le_int (m n : Int) : le (.int m) (.int n) = decide (m ≤ n) := by
  simp only [le, lt_int, eq_int, ← Bool.decide_or, Int.le_iff_lt_or_eq]

@[simp] theorem neg_int (n : Int) : neg (.int n) = .int (-n) := rfl

@[simp] theorem add?_int (m n : Int) : add? (.int m) (.int n) = some (.int (m + n)) := rfl

@[simp] theorem sub?_int (m n : Int) : sub? (.int m) (.int n) = some (.int (m - n)) := rfl

end Number

end Chronoplan
