import Chronoplan.CommandLine.Plan
import Chronoplan.Network.Slot

/-!
# The schedule command

Reads a network and writes whether it is consistent, its intervals, the free slots of a window
that have a given length, and the next such slot after the window's start.
-/

set_option autoImplicit false

namespace Chronoplan

namespace CommandLine

def scheduleOptions : List OptionSpec := [
  { long := "--network", short := some "-n", kind := .file true, required := true },
  { long := "--duration", short := none, kind := .numbers 1, required := true },
  { long := "--window", short := none, kind := .numbers 2, required := false },
  { long := "--output", short := some "-o", kind := .text, required := false },
  { long := "--verbose", short := some "-v", kind := .flag, required := false },
  helpOption]

structure ScheduleRequest where
  network : String
  duration : Number
  start : Number
  finish : Number
  target : String

def ScheduleRequest.ofValues (vs : Usage.Values) : ScheduleRequest :=
  let number (name : String) (i : Nat) (default : Nat) : Number :=
    .float (((vs.numbers? name).bind (·[i]?)).getD (.finite default))
  { network := (vs.text? "--network").getD ""
    duration := number "--duration" 0 0
    start := number "--window" 0 0
    finish := number "--window" 1 100
    target := (vs.text? "--output").getD "-" }

def blamesNetwork (f : Fault) : Bool :=
  match f with
  | .illTyped => true
  | .unknownKey => true
  | _ => blamesProblem f

def readNetwork (folder : Folder) (path : String) : Run Network := do
  let v ← readMapping folder path
  match Network.read v with
  | .ok n => return n
  | .error f =>
    if blamesNetwork f then throw (.network (Path.normal path) f) else throw (.unexpected f)

def mappingOf (entries : List (String × Value)) : Value :=
  .dict (entries.map fun e => (.str e.1, e.2))

def slotValue (s : Slot) : Value :=
  mappingOf [("start", .num s.start), ("end", finiteTime s.finish)]

def intervalValue (i : Interval) : Value :=
  mappingOf [("id", .str i.id), ("start", .num i.start), ("end", .num i.finish),
    ("metadata", mappingOf i.metadata)]

def scheduleSummary (n : Network) (r : ScheduleRequest) : Except Fault Value := do
  let report ← n.check
  let free ← n.freeSlotsOf (.num r.duration) (.num r.start) (.num r.finish)
  let next ← n.nextSlotOf (.num r.duration) (.num r.start) .null
  return mappingOf [
    ("consistent", .bool report.consistent), ("reason", (report.reason.map .str).getD .null),
    ("time_unit", .str n.unit.name), ("lod_level", .str n.detail.name),
    ("time_points", .list (n.points.map .str)),
    ("intervals", .list ((← n.intervals).map intervalValue)),
    ("free_slots", .list (free.map slotValue)),
    ("next_slot", (next.map slotValue).getD .null)]

def runSchedule (folder : Folder) (r : ScheduleRequest) : Run Report := do
  let n ← readNetwork folder r.network
  let output ← writeValue folder r.target (← passOn (scheduleSummary n r))
  return { output, exitCode := 0 }

end CommandLine

end Chronoplan
