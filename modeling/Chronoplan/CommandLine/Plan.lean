import Chronoplan.CommandLine.Report
import Chronoplan.Planner.Execution
import Chronoplan.Problem
import Chronoplan.Settings.Section

/-!
# The plan command

Reads settings, domain and problem in this order, plans, and writes the summary of the run. Times
without a bound are written as null. Without a plan the exit code is 1, but there is a summary
all the same.
-/

set_option autoImplicit false

namespace Chronoplan

namespace CommandLine

def planOptions : List OptionSpec := [
  { long := "--domain", short := some "-d", kind := .text, required := true },
  { long := "--problem", short := some "-p", kind := .file true, required := true },
  { long := "--config", short := some "-c", kind := .file false, required := false },
  { long := "--execute", short := none, kind := .flag, required := false },
  { long := "--trace", short := none, kind := .flag, required := false },
  { long := "--output", short := some "-o", kind := .text, required := false },
  { long := "--verbose", short := some "-v", kind := .flag, required := false },
  helpOption]

structure PlanRequest where
  domain : String
  problem : String
  settings : Option String
  execute : Bool
  showTrace : Bool
  target : String

def PlanRequest.ofValues (vs : Usage.Values) : PlanRequest where
  domain := (vs.text? "--domain").getD ""
  problem := (vs.text? "--problem").getD ""
  settings := vs.text? "--config"
  execute := vs.has "--execute"
  showTrace := vs.has "--trace"
  target := (vs.text? "--output").getD "-"

def finiteTime (n : Number) : Value := if n.isInfinite then .null else .num n

/-- The settings of a file, the standard ones without a file or when it does not exist. -/
def settingsOf (folder : Folder) : Option String → Except Fault Settings
  | none => .ok Settings.standard
  | some path =>
    let path := Path.normal path
    match folder path with
    | .file text => Settings.load path (some text)
    | .directory => Settings.load path none
    | .tooLong => .error .unreachablePath
    | _ => .ok Settings.standard

def settingsFailure (f : Fault) : Failure :=
  match f with
  | .unreadableSettings _ => .settings f
  | .settingsShape _ => .settings f
  | .invalidSettings _ _ _ => .settings f
  | _ => .unexpected f

def plannerConfigOf (folder : Folder) (r : PlanRequest) : Except Fault PlannerConfig := do
  let s ← settingsOf folder r.settings
  let s ← if r.execute then s.set "planner.execute" (.bool true) else pure s
  s.plannerConfig none

def blamesProblem : Fault → Bool
  | .illTyped => false
  | .unknownKey => false
  | .unknownAttribute => false
  | .indexOutOfRange => false
  | .tooLarge => false
  | .tooPrecise => false
  | .exponentTooLarge => false
  | .divisionByZero => false
  | .unreachablePath => false
  | .endless => false
  | _ => true

def readProblem (folder : Folder) (path : String) : Run Problem := do
  let v ← readMapping folder path
  match Problem.read v with
  | .ok p => return p
  | .error f =>
    if blamesProblem f then throw (.problem (Path.normal path) f) else throw (.unexpected f)

def summary (showTrace : Bool) (r : PlanResult) : Except Fault Value := do
  match ← r.toValue finiteTime with
  | .dict entries =>
    let trace := if showTrace then [(.str "trace", .list (r.events.map Event.toValue))] else []
    return .dict (entries ++ trace)
  | v => return v

def runPlan (clock : Clock) (folder : Folder) (library : Library) (r : PlanRequest) :
    Run Report := do
  let config ← (plannerConfigOf folder r).mapError settingsFailure
  let domain ← (← passOn (library.domain r.domain)).mapError .domain
  let problem ← readProblem folder r.problem
  if problem.items.isEmpty then throw .noItems
  let result ← passOn (plan clock domain config problem.state (problem.items.map .item))
  let output ← writeValue folder r.target (← passOn (summary r.showTrace result))
  return { output, exitCode := if result.plan.isOk then 0 else 1 }

end CommandLine

end Chronoplan
