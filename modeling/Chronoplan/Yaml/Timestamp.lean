import Chronoplan.Number.Decimal
import Chronoplan.Value.Text

/-!
# Timestamps of YAML

A date, or a date with a time of day and possibly an offset from universal time. Months, days and
hours may have one digit, except that a date alone has two digits for month and day.
-/

set_option autoImplicit false

namespace Chronoplan

namespace Yaml

structure Clock where
  hour : Nat
  minute : Nat
  second : Nat
  micro : Nat
  offset : Option Int

structure Timestamp where
  date : Date
  clock : Option Clock

namespace Timestamp

def digits (least most : Nat) (cs : List Char) : Option (Nat × List Char) :=
  let run := (cs.take most).takeWhile Char.isDigit
  if run.length < least then none
  else some (ofDigits 10 (run.filterMap digitValue?), cs.drop run.length)

def expect (x : Char) : List Char → Option (List Char)
  | [] => none
  | c :: r => if c == x then some r else none

def isTabOrSpace (c : Char) : Bool := c == ' ' || c == '\t'

def skipBlanks (cs : List Char) : List Char := cs.dropWhile isTabOrSpace

def zone (cs : List Char) : Option Int :=
  match cs with
  | ['Z'] => some 0
  | s :: r => do
    let (hours, r) ← digits 1 2 r
    let minutes ← match r with
      | [] => pure 0
      | _ => do
        let (m, r) ← digits 2 2 (← expect ':' r)
        if r.isEmpty then pure m else none
    let total : Int := ((hours * 60 + minutes) * 60000000 : Nat)
    if s == '+' then some total else if s == '-' then some (-total) else none
  | [] => none

/-- Digits behind a point as microseconds; further ones are cut off. -/
def takeFraction : List Char → Nat × List Char
  | '.' :: r =>
    let run := r.takeWhile Char.isDigit
    (ofDigits 10 ((run ++ List.replicate 6 '0').take 6 |>.filterMap digitValue?),
      r.drop run.length)
  | r => (0, r)

def readClock (cs : List Char) : Option Clock := do
  let (hour, r) ← digits 1 2 cs
  let (minute, r) ← digits 2 2 (← expect ':' r)
  let (second, r) ← digits 2 2 (← expect ':' r)
  let (micro, r) := takeFraction r
  if r.isEmpty then return { hour, minute, second, micro, offset := none }
  else return { hour, minute, second, micro, offset := some (← zone (skipBlanks r)) }

def takeGap : List Char → Option (List Char)
  | [] => none
  | c :: r =>
    if c == 'T' || c == 't' then some r
    else if isTabOrSpace c then some (skipBlanks r)
    else none

def read? (cs : List Char) : Option Timestamp := do
  let (year, r) ← digits 4 4 cs
  let (month, r) ← digits 1 2 (← expect '-' r)
  let (day, r) ← digits 1 2 (← expect '-' r)
  if r.isEmpty then return { date := { year, month, day }, clock := none }
  else return { date := { year, month, day }, clock := some (← readClock (← takeGap r)) }

def isImplied (cs : List Char) : Bool :=
  match read? cs with
  | some { clock := some _, .. } => true
  | some { clock := none, .. } => cs.length == 10
  | none => false

def toValue? (t : Timestamp) : Option Value :=
  match t.clock with
  | none => if t.date.valid then some (.date t.date) else none
  | some c =>
    let m : Moment :=
      { date := t.date, hour := c.hour, minute := c.minute, second := c.second,
        micro := c.micro, offset := c.offset }
    if m.valid then some (.moment m) else none

end Timestamp

end Yaml

end Chronoplan
