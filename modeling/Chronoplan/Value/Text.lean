import Chronoplan.Number.Decimal
import Chronoplan.Number.Shortest
import Chronoplan.Text.Quoted
import Chronoplan.Value.Basic

/-!
# The texts of a value

`text` is how a value reads in running text and `display` how it reads inside a message or a
sequence; they differ for strings, which `display` quotes, and for calendar values, for which it
spells out the parts. Integers of too many digits are not written, so a text that is asked for is
that of `spell` or `shown?`, or stands behind `requireWritable`.
-/

set_option autoImplicit false

namespace Chronoplan

def padLeft (width n : Nat) : String :=
  let digits := toString n
  String.ofList (List.replicate (width - digits.length) '0') ++ digits

def Number.text : Number → String
  | .bool b => if b then "True" else "False"
  | .int n => toString n
  | .float x => x.text
  | .ratio q => if q.den = 1 then toString q.num else toString q.num ++ "/" ++ toString q.den

def Number.isWritable : Number → Bool
  | .int n => decimalWidth n.natAbs ≤ mostDigits
  | .ratio q => decimalWidth q.num.natAbs ≤ mostDigits && decimalWidth q.den ≤ mostDigits
  | _ => true

def Number.display : Number → String
  | .ratio q => "Fraction(" ++ toString q.num ++ ", " ++ toString q.den ++ ")"
  | n => n.text

namespace Span

def seconds (micros : Int) : Nat := ((micros.fmod 86400000000) / 1000000).toNat

def fraction (micros : Int) : Nat := (micros.fmod 1000000).toNat

/-- Days when there are any, then hours, minutes and seconds. -/
def text (micros : Int) : String :=
  let d := days micros
  let s := seconds micros
  let plural := if d = 1 ∨ d = -1 then "" else "s"
  let f := fraction micros
  (if d = 0 then "" else toString d ++ " day" ++ plural ++ ", ")
    ++ toString (s / 3600) ++ ":" ++ padLeft 2 (s / 60 % 60) ++ ":" ++ padLeft 2 (s % 60)
    ++ (if f = 0 then "" else "." ++ padLeft 6 f)

def display (micros : Int) : String :=
  let part (name : String) (n : Int) : List String :=
    if n = 0 then [] else [name ++ "=" ++ toString n]
  let parts := part "days" (days micros) ++ part "seconds" (seconds micros)
    ++ part "microseconds" (fraction micros)
  "datetime.timedelta(" ++ (if parts.isEmpty then "0" else ", ".intercalate parts) ++ ")"

end Span

def Date.text (d : Date) : String :=
  padLeft 4 d.year ++ "-" ++ padLeft 2 d.month ++ "-" ++ padLeft 2 d.day

def Date.display (d : Date) : String :=
  "datetime.date(" ++ ", ".intercalate [toString d.year, toString d.month, toString d.day] ++ ")"

namespace Moment

def offsetText (micros : Int) : String :=
  let s := micros.natAbs / 1000000
  let f := micros.natAbs % 1000000
  (if micros < 0 then "-" else "+") ++ padLeft 2 (s / 3600) ++ ":" ++ padLeft 2 (s / 60 % 60)
    ++ (if s % 60 = 0 ∧ f = 0 then "" else ":" ++ padLeft 2 (s % 60))
    ++ (if f = 0 then "" else "." ++ padLeft 6 f)

def text (t : Moment) : String :=
  t.date.text ++ " " ++ padLeft 2 t.hour ++ ":" ++ padLeft 2 t.minute ++ ":" ++ padLeft 2 t.second
    ++ (if t.micro = 0 then "" else "." ++ padLeft 6 t.micro)
    ++ (match t.offset with
      | none => ""
      | some o => offsetText o)

def display (t : Moment) : String :=
  let clock := [t.hour, t.minute] ++
    (if t.micro = 0 then (if t.second = 0 then [] else [t.second]) else [t.second, t.micro])
  let fields := ([t.date.year, t.date.month, t.date.day] ++ clock).map toString
  let zone :=
    match t.offset with
    | none => []
    | some o =>
      if o = 0 then ["tzinfo=datetime.timezone.utc"]
      else ["tzinfo=datetime.timezone(" ++ Span.display o ++ ")"]
  "datetime.datetime(" ++ ", ".intercalate (fields ++ zone) ++ ")"

end Moment

namespace Value

mutual

def display : Value → String
  | .null => "None"
  | .num n => n.display
  | .str s => Display.quote s
  | .bytes octets => Display.quoteOctets octets
  | .list xs => "[" ++ ", ".intercalate (displayAll xs) ++ "]"
  | .tuple xs =>
    match displayAll xs with
    | [x] => "(" ++ x ++ ",)"
    | ds => "(" ++ ", ".intercalate ds ++ ")"
  | .set [] => "set()"
  | .set (x :: xs) => "\x7b" ++ ", ".intercalate (displayAll (x :: xs)) ++ "\x7d"
  | .cycle mapping => if mapping then "\x7b...\x7d" else "[...]"
  | .dict kvs => "\x7b" ++ ", ".intercalate (displayEntries kvs) ++ "\x7d"
  | .span m => Span.display m
  | .date d => d.display
  | .moment t => t.display

def displayAll : List Value → List String
  | [] => []
  | x :: xs => display x :: displayAll xs

def displayEntries : List (Value × Value) → List String
  | [] => []
  | (k, v) :: r => (display k ++ ": " ++ display v) :: displayEntries r

end

def text : Value → String
  | .str s => s
  | .num n => n.text
  | .span m => Span.text m
  | .date d => d.text
  | .moment t => t.text
  | v => v.display

mutual

def isWritable : Value → Bool
  | .num n => n.isWritable
  | .list xs => areWritable xs
  | .tuple xs => areWritable xs
  | .set xs => areWritable xs
  | .dict kvs => holdWritable kvs
  | _ => true

def areWritable : List Value → Bool
  | [] => true
  | x :: xs => isWritable x && areWritable xs

def holdWritable : List (Value × Value) → Bool
  | [] => true
  | (k, v) :: r => isWritable k && isWritable v && holdWritable r

end

def shown? (v : Value) : Option String := if v.isWritable then some v.display else none

end Value

end Chronoplan
