import Chronoplan.Number.Decimal
import Chronoplan.Text.Blank
import Chronoplan.Tick.Rounding

/-!
# Amounts of time in ticks

Plain quantities, time spans and moments become ticks of a unit at a level of detail. The exact
quotient is formed first and rounded once.
-/

set_option autoImplicit false

namespace Chronoplan

def readDigits (ds : List Nat) : Except Fault Nat := orFault .malformed (integerOfDigits? ds)

def ratioTail (whole : List Nat) : List Char → Except Fault Rat
  | '/' :: r =>
    match takeDigits r with
    | ([], _) => .error .malformed
    | (ds, []) => do
      if whole.isEmpty then throw .malformed
      let n ← readDigits whole
      let d ← readDigits ds
      if d = 0 then throw .divisionByZero
      return mkRat n d
    | _ => .error .malformed
  | r => do
    let (fraction, r) :=
      match r with
      | '.' :: r => takeDigits r
      | r => ([], r)
    if whole.isEmpty && fraction.isEmpty then throw .malformed
    match takeExponent r with
    | some (e, []) =>
      let _ ← readDigits whole
      let _ ← readDigits fraction
      return DecimalText.toRat { digits := whole ++ fraction, exponent := e - fraction.length }
    | _ => throw .malformed

def readRatio (s : String) : Except Fault Rat := do
  let (negative, r) := takeSign (strip isBlank (s.toList.map plainForm))
  let (whole, r) := takeDigits r
  let q ← ratioTail whole r
  return if negative then -q else q

def Value.toRatio : Value → Except Fault Rat
  | .num n => n.toRatio
  | .str s => readRatio s
  | _ => .error .illTyped

def Value.toExact : Value → Except Fault Rat
  | .num n => orFault .unknownAttribute n.exactValue?
  | _ => .error .unknownAttribute

def scaleValue (b factor : Value) : Except Fault Number := do
  match b with
  | .num n =>
    let x ← n.toBinary64
    if x.isInfinite then return n
    let q ← n.toRatio
    match factor with
    | .num f => return .int (← roundTicks (q * (← orFault .unknownAttribute f.exactValue?)))
    | _ => throw .illTyped
  | _ => throw .illTyped

def quantityTicks (quantity level : Value) : Except Fault Int := do
  let q ← quantity.toRatio
  let l ← Detail.ofValue level
  roundTicks (q * l.ticksPerUnit)

def tickQuotient (micros : Int) (u : TimeUnit) (l : Detail) : Rat :=
  mkRat micros u.micros * l.ticksPerUnit

def spanTicks (micros : Int) (u : TimeUnit) (l : Detail) : Except Fault Int :=
  roundTicks (tickQuotient micros u l)

/-- Ticks from one moment to another. The later one may lack an offset from universal time, the
reference may not. -/
def momentTicks (t reference : Moment) (u : TimeUnit) (l : Detail) : Except Fault Int :=
  match reference.offset with
  | none => .error .illTyped
  | some _ => spanTicks (t.micros - reference.micros) u l

def spanTicksOf (span unit level : Value) : Except Fault Int := do
  match span with
  | .span micros =>
    let u ← TimeUnit.ofValue unit
    spanTicks micros u (← Detail.ofValue level)
  | _ => throw .illTyped

def momentTicksOf (t reference unit level : Value) : Except Fault Int := do
  match t, reference with
  | .moment t, .moment r =>
    if r.offset.isNone then throw .illTyped
    spanTicksOf (.span (t.micros - r.micros)) unit level
  | .moment _, _ => throw .illTyped
  | _, _ => throw .unknownAttribute

end Chronoplan
