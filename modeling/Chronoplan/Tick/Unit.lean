import Chronoplan.Fault

/-!
# Time units and levels of detail

A network counts time in ticks. At the middle level of detail a tick is one time unit; at the
other levels it is a fixed power of ten of it. Both scales are ranked from the finest on.
-/

set_option autoImplicit false

namespace Chronoplan

inductive TimeUnit
  | microsecond
  | millisecond
  | second
  | minute
  | hour
  | day
deriving DecidableEq

namespace TimeUnit

def all : List TimeUnit := [.microsecond, .millisecond, .second, .minute, .hour, .day]

def name : TimeUnit → String
  | .microsecond => "microsecond"
  | .millisecond => "millisecond"
  | .second => "second"
  | .minute => "minute"
  | .hour => "hour"
  | .day => "day"

def micros : TimeUnit → Nat
  | .microsecond => 1
  | .millisecond => 1000
  | .second => 1000000
  | .minute => 60000000
  | .hour => 3600000000
  | .day => 86400000000

def rank (u : TimeUnit) : Nat := all.idxOf u + 1

def ofName? (s : String) : Option TimeUnit := all.find? (fun u => u.name == s)

def ofValue (v : Value) : Except Fault TimeUnit :=
  match v with
  | .str s => orFault (.unknownUnit v) (ofName? s)
  | _ => .error (.unknownUnit v)

def factor (a b : TimeUnit) : Rat := mkRat a.micros b.micros

theorem micros_pos (u : TimeUnit) : 0 < u.micros := by cases u <;> decide

theorem ofName?_name (u : TimeUnit) : ofName? u.name = some u := by cases u <;> decide

end TimeUnit

inductive Detail
  | ultraHigh
  | high
  | medium
  | low
  | veryLow
deriving DecidableEq

namespace Detail

def all : List Detail := [.ultraHigh, .high, .medium, .low, .veryLow]

def name : Detail → String
  | .ultraHigh => "ultra_high"
  | .high => "high"
  | .medium => "medium"
  | .low => "low"
  | .veryLow => "very_low"

/-- The length of a tick, in hundredths of a time unit. -/
def resolution : Detail → Nat
  | .ultraHigh => 1
  | .high => 10
  | .medium => 100
  | .low => 1000
  | .veryLow => 10000

def rank (l : Detail) : Nat := all.idxOf l + 1

def ofName? (s : String) : Option Detail := all.find? (fun l => l.name == s)

def ofValue (v : Value) : Except Fault Detail :=
  match v with
  | .str s => orFault (.unknownLevel v) (ofName? s)
  | _ => .error (.unknownLevel v)

def factor (a b : Detail) : Rat := mkRat a.resolution b.resolution

def ticksPerUnit (l : Detail) : Rat := mkRat medium.resolution l.resolution

def tolerance (fine coarse : Detail) : Rat := mkRat coarse.resolution fine.resolution / 2

theorem resolution_pos (l : Detail) : 0 < l.resolution := by cases l <;> decide

theorem ofName?_name (l : Detail) : ofName? l.name = some l := by cases l <;> decide

end Detail

end Chronoplan
