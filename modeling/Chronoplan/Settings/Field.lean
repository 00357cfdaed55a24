import Chronoplan.Fault
import Chronoplan.Number.Decimal
import Chronoplan.Text.Blank

/-!
# Settings fields

A field is read leniently: an integer may be a truth value, a whole number of another kind or a
decimal text, and a truth value may be 0 or 1 or one of the usual words. Whole numbers that are
not integers have to fit into 64 bits. The names of units and levels have to be exact.
-/

set_option autoImplicit false

namespace Chronoplan

namespace Field

/-! ## Integers -/

def plainInteger? (cs : List Char) : Option Int := do
  let (negative, r) := match cs with
    | '-' :: r => (true, r)
    | r => (false, r)
  let n ← match r with
    | ['0'] => some 0
    | '0' :: _ => none
    | _ =>
      match takeDigits r with
      | ([], _) => none
      | (ds, []) => integerOfDigits? ds
      | _ => none
  return if negative then -n else n

def isOverlong (cs : List Char) : Bool :=
  let (sign, r) := match cs with
    | '-' :: r => (1, r)
    | r => (0, r)
  match r with
  | '0' :: _ => false
  | _ => mostDigits < sign + (r.takeWhile Char.isDigit).length

def dropPlus : List Char → List Char
  | '+' :: '-' :: r => '+' :: '-' :: r
  | '+' :: r => r
  | r => r

/-- What is left of a zero and what follows it, without leading zeros. The last character seen
is the one in front of a point, or what is kept of nothing else. -/
def dropZerosAfter (last : Char) : List Char → Option (List Char)
  | [] => some [last]
  | c :: r =>
    if c == '0' || c == '_' then dropZerosAfter c r
    else if c.isDigit || c == '-' then some (c :: r)
    else if c == '.' then some (last :: c :: r)
    else none

def dropZeros : List Char → Option (List Char)
  | '0' :: r => dropZerosAfter '0' r
  | c :: r => if c.isDigit || c == '-' then some (c :: r) else none
  | [] => none

def dropFraction (cs : List Char) : List Char :=
  match cs.dropWhile (· != '.') with
  | '.' :: r => if !r.isEmpty && r.all (· == '0') then cs.takeWhile (· != '.') else cs
  | _ => cs

def areGrouped : List Char → Bool
  | '_' :: _ => false
  | [_, '_'] => false
  | _ :: '_' :: r => areGrouped r
  | _ :: r => areGrouped r
  | [] => true

def ungrouped? (cs : List Char) : Option (List Char) :=
  if areGrouped cs then some (cs.filter (· != '_')) else none

/-- An integer text: blanks around it, a sign, leading zeros, digits grouped by single
underscores, and a fraction of zeros. -/
def integerText? (s : String) : Option Int := do
  let kept ← dropZeros (dropPlus (strip isSpace s.toList))
  plainInteger? (← ungrouped? (dropFraction kept))

def readIntegerText (s : String) : Except Misfit Int :=
  if isOverlong s.toList then .error .outOfSize
  else
    match (plainInteger? s.toList).or (integerText? s) with
    | some n => .ok n
    | none => .error .unreadableInteger

def fitsWord (n : Int) : Bool := decide (n.natAbs < Nat.pow 2 63)

def ofDecimal (x : Binary64) : Except Misfit Int :=
  match x.toRat? with
  | none => .error .notFinite
  | some q =>
    if q.den = 1 then if fitsWord q.num then .ok q.num else .error .outOfSize
    else .error .fractional

def textOf? : Value → Option (Option String)
  | .str s => some (some s)
  | .bytes octets => some (String.fromUTF8? (ByteArray.mk (octets.map UInt8.ofNat).toArray))
  | _ => none

def readInt (v : Value) : Except Misfit Int :=
  match textOf? v, v with
  | some (some s), _ => readIntegerText s
  | some none, _ => .error .unreadableInteger
  | none, .num (.bool b) => .ok (if b then 1 else 0)
  | none, .num (.int n) => .ok n
  | none, .num n =>
    match n.toBinary64? with
    | some x => ofDecimal x
    | none => .error .notInteger
  | _, _ => .error .notInteger

def readAtLeast (least : Int) (v : Value) : Except Misfit Int := do
  let n ← readInt v
  if n < least then throw .tooSmall
  return n

/-! ## Truth values -/

def noWords : List String := ["0", "off", "f", "false", "n", "no"]

def yesWords : List String := ["1", "on", "t", "true", "y", "yes"]

def ofZeroOrOne (n : Int) : Except Misfit Bool :=
  if n = 0 then .ok false else if n = 1 then .ok true else .error .unreadableTruth

def readTruthText (s : String) : Except Misfit Bool :=
  let word := asciiLower s.toList
  if noWords.contains word then .ok false
  else if yesWords.contains word then .ok true
  else .error .unreadableTruth

def readTruth (v : Value) : Except Misfit Bool :=
  match textOf? v, v with
  | some (some s), _ => readTruthText s
  | some none, _ => .error .unreadableTruth
  | none, .num (.bool b) => .ok b
  | none, .num (.int n) =>
    if fitsWord n || n = -(Nat.pow 2 63 : Nat) then ofZeroOrOne n else .error .notTruth
  | none, .num n =>
    match n.toBinary64?.map ofDecimal with
    | some (.ok n) => ofZeroOrOne n
    | _ => .error .notTruth
  | _, _ => .error .notTruth

/-! ## Names -/

def readName {α : Type} (ofName? : String → Option α) (v : Value) : Except Misfit α :=
  match (textOf? v).join.bind ofName? with
  | some a => .ok a
  | none => .error .unknownName

end Field

end Chronoplan
