/-!
# Dates, moments and time spans

Dates are proleptic Gregorian. A moment is a date and a time of day, either with an offset from
universal time or without one; a moment without an offset is read as universal time
when it has to be placed on the time axis. A time span is a whole number of microseconds.
-/

set_option autoImplicit false

namespace Chronoplan

structure Date where
  year : Nat
  month : Nat
  day : Nat
deriving DecidableEq

namespace Date

def isLeap (y : Nat) : Bool := y % 4 == 0 && (y % 100 != 0 || y % 400 == 0)

def monthLength (y m : Nat) : Nat :=
  match m with
  | 2 => if isLeap y then 29 else 28
  | 4 => 30
  | 6 => 30
  | 9 => 30
  | 11 => 30
  | _ => 31

def valid (d : Date) : Bool :=
  1 ≤ d.year && d.year ≤ 9999 && 1 ≤ d.month && d.month ≤ 12
    && 1 ≤ d.day && d.day ≤ monthLength d.year d.month

def daysBefore (y : Nat) : Nat → Nat
  | 0 => 0
  | 1 => 0
  | m + 1 => daysBefore y m + monthLength y m

def dayNumber (d : Date) : Int :=
  let y : Nat := d.year - 1
  (365 * y + y / 4 - y / 100 + y / 400 + daysBefore d.year d.month + d.day : Int) - 719163

def placeInYear (y : Nat) : Nat → Nat → Nat → Nat × Nat
  | 0, m, n => (m, n + 1)
  | fuel + 1, m, n =>
    if n < monthLength y m then (m, n + 1)
    else placeInYear y fuel (m + 1) (n - monthLength y m)

def ofDayNumber? (number : Int) : Option Date :=
  let n := number + 719162
  if n < 0 || 3652058 < n then none
  else
    let n := n.toNat
    let centuries := min 3 (n % 146097 / 36524)
    let inCentury := n % 146097 - 36524 * centuries
    let years := min 3 (inCentury % 1461 / 365)
    let y := 400 * (n / 146097) + 100 * centuries + 4 * (inCentury / 1461) + years + 1
    let (m, d) := placeInYear y 11 1 (inCentury % 1461 - 365 * years)
    some ⟨y, m, d⟩

end Date

namespace Span

def days (micros : Int) : Int := micros.fdiv 86400000000

def inRange? (micros : Int) : Option Int :=
  if (days micros).natAbs ≤ 999999999 then some micros else none

end Span

structure Moment where
  date : Date
  hour : Nat
  minute : Nat
  second : Nat
  micro : Nat
  /-- Microseconds east of universal time. -/
  offset : Option Int
deriving DecidableEq

namespace Moment

def valid (t : Moment) : Bool :=
  t.date.valid && t.hour < 24 && t.minute < 60 && t.second < 60 && t.micro < 1000000
    && (match t.offset with
      | none => true
      | some o => -86400000000 < o && o < 86400000000)

def localMicros (t : Moment) : Int :=
  t.date.dayNumber * 86400000000
    + (((t.hour * 60 + t.minute) * 60 + t.second) * 1000000 + t.micro : Nat)

def micros (t : Moment) : Int := t.localMicros - t.offset.getD 0

def shift? (t : Moment) (distance : Int) : Option Moment := do
  let micros := t.localMicros + distance
  let date ← Date.ofDayNumber? (micros.fdiv 86400000000)
  let rest := (micros.fmod 86400000000).toNat
  return {
    date
    hour := rest / 3600000000
    minute := rest / 60000000 % 60
    second := rest / 1000000 % 60
    micro := rest % 1000000
    offset := t.offset }

def epoch : Moment :=
  { date := ⟨1970, 1, 1⟩, hour := 0, minute := 0, second := 0, micro := 0, offset := some 0 }

/-- Moments with an offset are the same when they are simultaneous; a moment without one is
never the same as a moment with one. -/
def same (a b : Moment) : Bool :=
  a.offset.isSome == b.offset.isSome && decide (a.micros = b.micros)

end Moment

end Chronoplan
