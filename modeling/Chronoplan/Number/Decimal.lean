import Chronoplan.Number.Basic
import Chronoplan.Text.Digit

/-!
# Reading decimal numbers

A decimal text is read as an exact quotient and rounded once. Digits may be grouped by single
underscores between them.
-/

set_option autoImplicit false

namespace Chronoplan

def digitValue? (c : Char) : Option Nat :=
  if '0' ≤ c ∧ c ≤ '9' then some (c.toNat - '0'.toNat) else none

def alphaDigit? (c : Char) : Option Nat :=
  if '0' ≤ c ∧ c ≤ '9' then some (c.toNat - '0'.toNat)
  else if 'a' ≤ c ∧ c ≤ 'z' then some (c.toNat - 'a'.toNat + 10)
  else if 'A' ≤ c ∧ c ≤ 'Z' then some (c.toNat - 'A'.toNat + 10)
  else none

def startsWithDigit : List Char → Bool
  | c :: _ => (digitValue? c).isSome
  | [] => false

/-- The leading digits and what follows them. An underscore after a digit (`grouped`) and before
another one is skipped. -/
def digitRun (grouped : Bool) : List Char → List Nat × List Char
  | [] => ([], [])
  | c :: r =>
    match digitValue? c with
    | some d =>
      let (ds, rest) := digitRun true r
      (d :: ds, rest)
    | none =>
      if grouped && c == '_' && startsWithDigit r then digitRun false r else ([], c :: r)

def takeDigits (cs : List Char) : List Nat × List Char := digitRun false cs

def ofDigits (base : Nat) (ds : List Nat) : Nat := ds.foldl (fun n d => n * base + d) 0

def takeSign : List Char → Bool × List Char
  | '+' :: r => (false, r)
  | '-' :: r => (true, r)
  | r => (false, r)

def mostDigits : Nat := 4300

def integerOfDigits? (ds : List Nat) : Option Nat :=
  if ds.length ≤ mostDigits then some (ofDigits 10 ds) else none

structure DecimalText where
  digits : List Nat
  exponent : Int

namespace DecimalText

def significand (t : DecimalText) : Nat := ofDigits 10 t.digits

def toRat (t : DecimalText) : Rat :=
  if t.exponent ≥ 0 then ((t.significand * Nat.pow 10 t.exponent.toNat : Nat) : Rat)
  else mkRat t.significand (Nat.pow 10 (-t.exponent).toNat)

/-- The nearest binary64; the exponent is cut off where the result is already infinite or zero. -/
def toBinary64 (t : DecimalText) : Binary64 :=
  let digits := t.digits.dropWhile (· == 0)
  if digits.isEmpty then .finite 0
  else if t.exponent + digits.length > 400 then .posInf
  else if t.exponent + digits.length < -400 then .finite 0
  else Binary64.ofRat (toRat { t with digits })

end DecimalText

def takeExponent : List Char → Option (Int × List Char)
  | c :: r =>
    if c = 'e' ∨ c = 'E' then
      let (negative, r) := takeSign r
      match takeDigits r with
      | ([], _) => none
      | (ds, rest) => some (if negative then -(ofDigits 10 ds : Int) else ofDigits 10 ds, rest)
    else some (0, c :: r)
  | [] => some (0, [])

def decimal? (cs : List Char) : Option DecimalText :=
  let (whole, r) := takeDigits cs
  let (fraction, r) :=
    match r with
    | '.' :: r => takeDigits r
    | r => ([], r)
  if whole.isEmpty && fraction.isEmpty then none
  else
    match takeExponent r with
    | some (e, []) => some { digits := whole ++ fraction, exponent := e - fraction.length }
    | _ => none

def asciiLower (cs : List Char) : String := String.ofList (cs.map Char.toLower)

def binary64? (cs : List Char) : Option Binary64 :=
  let (negative, r) := takeSign cs
  let magnitude? : Option Binary64 :=
    match asciiLower r with
    | "inf" => some .posInf
    | "infinity" => some .posInf
    | "nan" => some (.nan 0)
    | _ => (decimal? r).map DecimalText.toBinary64
  magnitude?.map fun x => if negative then x.neg else x

def readBinary64? (s : String) : Option Binary64 := binary64? (plainNumber s.toList)

end Chronoplan
