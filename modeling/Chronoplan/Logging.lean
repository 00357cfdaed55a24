import Chronoplan.Fault
import Chronoplan.Text.Digit
import Chronoplan.Text.Word

/-!
# Logging setup

The first setup that gets a line format decides; later ones change nothing, though the name of
their level still has to be known. Some known names stand for something that is no level, and a
setup with one of them fails after its format is in place, at the usual level.
-/

set_option autoImplicit false

namespace Chronoplan

structure LogSetup where
  level : Nat
  format : String
deriving DecidableEq

namespace LogSetup

def standardFormat : String := "%(asctime)s - %(name)s - %(levelname)s - %(message)s"

inductive LevelName
  | level (n : Nat)
  | noLevel (f : Fault)

def levelNames : List (String × LevelName) :=
  [("CRITICAL", .level 50), ("FATAL", .level 50), ("ERROR", .level 40), ("WARNING", .level 30),
    ("WARN", .level 30), ("INFO", .level 20), ("DEBUG", .level 10), ("NOTSET", .level 0),
    ("BASIC_FORMAT", .noLevel .malformed), ("_STYLES", .noLevel .illTyped)]

def standardLevel : Nat := 30

def capitals (c : Char) : List Char :=
  match c.toNat with
  | 305 => ['I']
  | 383 => ['S']
  | 64261 => ['S', 'T']
  | 64262 => ['S', 'T']
  | _ => [c.toUpper]

def levelName? (name : String) : Option LevelName :=
  let upper := String.ofList (name.toList.flatMap capitals)
  (levelNames.find? fun e => e.1 == upper).map Prod.snd

/-! ## Line formats -/

def dropWidth : List Char → List Char
  | '*' :: r => r
  | r => r.dropWhile isDecimalDigit

def dropPrecision : List Char → List Char
  | '.' :: '*' :: r => r
  | '.' :: d :: r => if isDecimalDigit d then r.dropWhile isDecimalDigit else '.' :: d :: r
  | r => r

/-- Whether a letter of either case is the type of a field; a dotted or dotless i and a long s
count, too. -/
def isFieldType (c : Char) : Bool :=
  "diouxefgcrsa%".contains c.toLower || [304, 305, 383].contains c.toNat

def startsField : List Char → Bool
  | '%' :: '(' :: r =>
    let name := r.takeWhile isWordChar
    match r.drop name.length with
    | ')' :: r =>
      let r := dropPrecision (dropWidth (r.dropWhile fun c => "#0+ -".contains c))
      !name.isEmpty && (match r with
        | c :: _ => isFieldType c
        | [] => false)
    | _ => false
  | _ => false

def hasField : List Char → Bool
  | [] => false
  | c :: r => startsField (c :: r) || hasField r

/-- The format of a request: the standard one when none is given, the bare message when an empty
one is, and otherwise one that has a field. -/
def readFormat : Value → Except Fault String
  | .null => .ok standardFormat
  | .str "" => .ok "%(message)s"
  | .str s => if hasField s.toList then .ok s else .error .malformed
  | v => if v.truthy then .error .illTyped else .ok "%(message)s"

def readLevel (level : Value) (verbose : Bool) : Except Fault LevelName :=
  if verbose then .ok (.level 10)
  else
    match level with
    | .null => .ok (.level standardLevel)
    | .str s => orFault .unknownAttribute (levelName? s)
    | _ => .error .unknownAttribute

def configure (current : Option LogSetup) (level : Value) (verbose : Bool) (format : Value) :
    Option LogSetup × Option Fault :=
  match readLevel level verbose, current, readFormat format with
  | .error f, s, _ => (s, some f)
  | .ok _, some s, _ => (some s, none)
  | .ok _, none, .error f => (none, some f)
  | .ok (.level n), none, .ok format => (some { level := n, format }, none)
  | .ok (.noLevel f), none, .ok format => (some { level := standardLevel, format }, some f)

end LogSetup

end Chronoplan
