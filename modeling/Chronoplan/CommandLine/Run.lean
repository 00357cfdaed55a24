import Chronoplan.CommandLine.Schedule

/-!
# Running a command line

The first word names a command and the rest are its options. What is at the paths that the words
mention, and in the modules they ask for, is all that a run depends on.
-/

set_option autoImplicit false

namespace Chronoplan

namespace CommandLine

def generalOptions : List OptionSpec := [
  { long := "--version", short := none, kind := .flag, required := false },
  helpOption]

def page (text : String) : Report := { output := { target := none, text }, exitCode := 0 }

def helpPage (command : String) (specs : List OptionSpec) : Report :=
  page ("Usage: chronoplan " ++ command ++ " [OPTIONS]\n\nOptions:\n"
    ++ String.join (specs.map fun o => "  " ++ ", ".intercalate o.names ++ "\n"))

def generalPage? : List Occurrence → Option Report
  | [] => none
  | (o, _) :: _ =>
    if o.long == helpOption.long then some (helpPage "COMMAND" generalOptions)
    else some (page "chronoplan, version 1.0.0\n")

def readFront (args : List String) : Run (List Occurrence × List String) :=
  (Usage.scanFront generalOptions (args.length + 1) args).mapError Failure.ofUsage

def runCommand (folder : Folder) (name : String) (specs : List OptionSpec) (args : List String)
    (body : Usage.Values → Run Report) : Run Report := do
  match ← (Usage.read folder specs args).mapError Failure.ofUsage with
  | none => return helpPage name specs
  | some vs => body vs

/-- Runs a command line: general options, a command's name, its options and their values. A word
that names no command may still be an option behind the end of the options. -/
def run (clock : Clock) (folder : Folder) (library : Library) (args : List String) :
    Run Report := do
  let (found, rest) ← readFront args
  match generalPage? found, rest with
  | some p, _ => return p
  | none, [] => throw (.usage .noCommand)
  | none, "plan" :: rest =>
    runCommand folder "plan" planOptions rest fun vs =>
      runPlan clock folder library (PlanRequest.ofValues vs)
  | none, "schedule" :: rest =>
    runCommand folder "schedule" scheduleOptions rest fun vs =>
      runSchedule folder (ScheduleRequest.ofValues vs)
  | none, word :: rest =>
    let (found, _) ← readFront (word :: rest)
    match generalPage? found with
    | some p => return p
    | none => throw (.usage (.unknownCommand word))

/-! ## What a command line mentions -/

def mentioned (args : List String) : List String :=
  args.flatMap fun a => [a, String.ofList (a.toList.drop 2)] ++ (Usage.splitValue a).2.toList

def mentionedPaths (args : List String) : List String :=
  ((mentioned args).flatMap fun p => [p, Path.normal p, Path.parent p]).eraseDups

def mentionedModules (args : List String) : List String :=
  ((mentioned args).filterMap fun a => (Library.splitRequest a).map Prod.fst).eraseDups

end CommandLine

end Chronoplan
