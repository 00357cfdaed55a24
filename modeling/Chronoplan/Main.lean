import Chronoplan.CommandLine.Run

/-!
# The program

Looks at the paths that the arguments mention, runs the command line on what is found there, and
writes its output. The module `m` is the file `m.yaml`.
-/

set_option autoImplicit false

namespace Chronoplan

namespace Program

def lookAt (path : String) : IO PathState := do
  try
    return .file (← IO.FS.readFile path)
  catch e =>
    match e with
    | .inappropriateType _ code _ => return if code == 21 then .directory else .missing
    | _ => return .missing

def lookAtAll (paths : List String) : IO Folder := do
  let states ← paths.mapM fun p => return (p, ← lookAt p)
  return fun path =>
    match states.find? fun e => e.1 == path with
    | some e => e.2
    | none => .missing

def loadModules (names : List String) : IO Library := do
  let found ← names.mapM fun n => do
    match ← lookAt (n ++ ".yaml") with
    | .file text =>
      match Yaml.read text >>= fun v => Library.exportsOf v.toValue with
      | .ok exports => return some (n, exports)
      | .error _ => return none
    | _ => return none
  return found.filterMap id

def emit (o : CommandLine.Output) : IO Unit :=
  match o.target with
  | none => IO.print o.text
  | some path => IO.FS.writeFile path o.text

end Program

end Chronoplan

open Chronoplan

def main (args : List String) : IO UInt32 := do
  let folder ← Program.lookAtAll (CommandLine.mentionedPaths args)
  let library ← Program.loadModules (CommandLine.mentionedModules args)
  match CommandLine.run Clock.stopped folder library args with
  | .ok report =>
    Program.emit report.output
    return report.exitCode.toUInt32
  | .error failure =>
    if let .interrupted _ written := failure then Program.emit written
    IO.eprintln ("Error: " ++ failure.message.getD "Unexpected fault")
    return failure.exitCode.toUInt32
