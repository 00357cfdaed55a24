import Chronoplan.Fault
import Chronoplan.Number.Decimal
import Chronoplan.Text.Base64
import Chronoplan.Text.Split
import Chronoplan.Yaml.Timestamp

/-!
# Types of YAML scalars

A plain scalar without a tag has the type that its text looks like: a truth value, a number, null,
a timestamp, the merge or the value mark, and else a string. Integers may be binary, octal,
hexadecimal or of base 60; a decimal needs a point, and its exponent a sign. With a tag a number
may be written more freely, in the digits of any script and with blanks around it.
-/

set_option autoImplicit false

namespace Chronoplan

namespace Yaml

inductive ScalarType
  | bool
  | float
  | int
  | merge
  | null
  | timestamp
  | value
  | str
  | binary
deriving DecidableEq

namespace ScalarType

def trueTexts : List String :=
  ["yes", "Yes", "YES", "true", "True", "TRUE", "on", "On", "ON"]

def falseTexts : List String :=
  ["no", "No", "NO", "false", "False", "FALSE", "off", "Off", "OFF"]

def nullTexts : List String := ["~", "null", "Null", "NULL", ""]

def isGroupedDigit (c : Char) : Bool := c.isDigit || c == '_'

def startsGroup : List Char → Bool
  | c :: _ => c.isDigit
  | [] => false

def dropSign : List Char → List Char
  | '+' :: r => r
  | '-' :: r => r
  | r => r

def isSixtieth : List Char → Bool
  | [c] => c.isDigit
  | [a, b] => a.isDigit && a < '6' && b.isDigit
  | _ => false

def isExponent : List Char → Bool
  | [] => true
  | e :: s :: c :: r =>
    (e == 'e' || e == 'E') && (s == '+' || s == '-') && c.isDigit && r.all Char.isDigit
  | _ => false

def isFraction : List Char → Bool
  | '.' :: r => isExponent (r.dropWhile isGroupedDigit)
  | _ => false

def isSixtyDecimal (cs : List Char) : Bool :=
  let whole := cs.takeWhile (· != '.')
  let fraction := cs.drop whole.length
  match splitChars ':' whole with
  | first :: part :: parts =>
    startsGroup first && first.all isGroupedDigit && (part :: parts).all isSixtieth
      && !fraction.isEmpty && (fraction.drop 1).all isGroupedDigit
  | _ => false

def isFloat (cs : List Char) : Bool :=
  let r := dropSign cs
  (startsGroup r && isFraction (r.dropWhile isGroupedDigit))
    || (match cs with
      | '.' :: r => startsGroup r && isFraction ('.' :: r)
      | _ => false)
    || isSixtyDecimal r
    || [".inf", ".Inf", ".INF"].contains (String.ofList r)
    || [".nan", ".NaN", ".NAN"].contains (String.ofList cs)

def isInt (cs : List Char) : Bool :=
  match dropSign cs with
  | ['0'] => true
  | '0' :: 'b' :: c :: r => (c :: r).all fun x => x == '0' || x == '1' || x == '_'
  | '0' :: 'x' :: c :: r =>
    (c :: r).all fun x => x == '_' || ((alphaDigit? x).filter (· < 16)).isSome
  | '0' :: r => r.all fun x => x == '_' || (x.isDigit && x < '8')
  | c :: r =>
    match splitChars ':' r with
    | first :: parts => c.isDigit && first.all isGroupedDigit && parts.all isSixtieth
    | [] => false
  | [] => false

def withoutBreak (s : String) : String :=
  match s.toList.reverse with
  | '\n' :: c :: r => String.ofList (c :: r).reverse
  | _ => s

/-- The type of a scalar without a tag. A line break at its end makes no difference. -/
def ofText (written : String) : ScalarType :=
  let s := withoutBreak written
  let cs := s.toList
  if trueTexts.contains s || falseTexts.contains s then .bool
  else if isFloat cs then .float
  else if isInt cs then .int
  else if s == "<<" then .merge
  else if nullTexts.contains s then .null
  else if Timestamp.isImplied cs then .timestamp
  else if s == "=" then .value
  else .str

end ScalarType

/-! ## Values of scalars -/

def readBool (s : String) : Except Fault Bool :=
  let t := asciiLower s.toList
  if ScalarType.trueTexts.contains t then .ok true
  else if ScalarType.falseTexts.contains t then .ok false
  else .error .unknownKey

/-- The letters that announce a base behind a zero. -/
def baseLetters : Nat → List Char
  | 2 => ['b', 'B']
  | 8 => ['o', 'O']
  | 16 => ['x', 'X']
  | _ => []

def dropBase (base : Nat) : List Char → List Char
  | '0' :: c :: r => if (baseLetters base).contains c then r else '0' :: c :: r
  | r => r

/-- An integer of a base with a sign, which may announce the base once more. Decimal digits
may be of any script, but not too many. -/
def wholeNumber (base : Nat) (cs : List Char) : Except Fault Int := do
  let (negative, r) := takeSign (plainNumber cs)
  let digits := (dropBase base r).mapM fun c => (alphaDigit? c).filter (· < base)
  let n ← match digits with
    | none => throw .malformed
    | some [] => throw .malformed
    | some ds =>
      if base = 10 then orFault .malformed (integerOfDigits? ds) else pure (ofDigits base ds)
  return if negative then -n else n

def sixties : List Int → Int := List.foldl (fun n part => n * 60 + part) 0

def readInt (s : String) : Except Fault Int := do
  let (negative, r) := takeSign (s.toList.filter (· != '_'))
  let magnitude ← match r with
    | [] => throw .indexOutOfRange
    | ['0'] => pure 0
    | '0' :: 'b' :: ds => wholeNumber 2 ds
    | '0' :: 'x' :: ds => wholeNumber 16 ds
    | '0' :: ds => wholeNumber 8 ('0' :: ds)
    | _ =>
      if r.contains ':' then sixties <$> (splitChars ':' r).mapM (wholeNumber 10)
      else wholeNumber 10 r
  return if negative then -magnitude else magnitude

def readDecimal (cs : List Char) : Except Fault Binary64 :=
  orFault .malformed (binary64? (plainNumber cs))

def scaled (x factor : Binary64) : Binary64 :=
  match x.toRat?, factor.toRat? with
  | some p, some q => if p = 0 then x else .ofRat (p * q)
  | _, _ => x

def sixtyDecimals : List Binary64 → Nat → Binary64 → Except Fault Binary64
  | [], _, sum => .ok sum
  | x :: r, factor, sum => do
    let scale ← (Number.int factor).toBinary64
    sixtyDecimals r (factor * 60) (sum.add (scaled x scale))

/-- The mark of the NaN that the text `.nan` stands for, wherever it occurs. -/
def nanMark : Nat := 1

def readFloat (s : String) : Except Fault Binary64 := do
  let (negative, r) := takeSign (s.toList.filter (· != '_') |>.map Char.toLower)
  match String.ofList r with
  | "" => throw (if s.toList.any fun c => c == '-' || c == '+' then .malformed else .indexOutOfRange)
  | ".inf" => return if negative then .negInf else .posInf
  | ".nan" => return .nan nanMark
  | _ =>
    let magnitude ←
      if r.contains ':' then do
        sixtyDecimals (← (splitChars ':' r).mapM readDecimal).reverse 1 (.finite 0)
      else readDecimal r
    return if negative then magnitude.neg else magnitude

def readBinary (s : String) : Except Fault Value :=
  if s.toList.all fun c => c.toNat < 128 then
    orFault .notYaml ((Base64.read? s.toList).map .bytes)
  else .error .notYaml

def scalarValue (type : ScalarType) (s : String) : Except Fault Value :=
  match type with
  | .bool => .bool <$> readBool s
  | .float => .float <$> readFloat s
  | .int => .int <$> readInt s
  | .null => .ok .null
  | .str => .ok (.str s)
  | .timestamp => do
    let t ← orFault .unknownAttribute (Timestamp.read? (ScalarType.withoutBreak s).toList)
    orFault .malformed t.toValue?
  | .binary => readBinary s
  | .merge => .error .notYaml
  | .value => .error .notYaml

end Yaml

end Chronoplan
