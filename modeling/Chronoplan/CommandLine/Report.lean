import Chronoplan.CommandLine.Library
import Chronoplan.CommandLine.Usage
import Chronoplan.Value.Json
import Chronoplan.Yaml.Document

/-!
# What a command line reports

A command ends with a text for its output and an exit code, or with a failure. A usage error has
exit code 2 and every other failure 1. Faults that a command does not expect are passed on as
they are.
-/

set_option autoImplicit false

namespace Chronoplan

namespace CommandLine

structure Output where
  target : Option String
  text : String

inductive Failure
  | usage (e : UsageError)
  | settings (f : Fault)
  | domain (i : DomainRequestIssue)
  | notYaml (path : String)
  | notMapping (path : String)
  | problem (path : String) (f : Fault)
  | network (path : String) (f : Fault)
  | noItems
  | unopened (path reason : String)
  | unexpected (f : Fault)
  /-- The writing of an output stopped where a part of it has been written. -/
  | interrupted (f : Fault) (written : Output)

namespace Failure

def withDetail (heading : String) (f : Fault) : String :=
  match f.message with
  | some m => heading ++ ": " ++ m
  | none => heading

def message : Failure → Option String
  | .usage e => some e.message
  | .settings f => f.message
  | .domain i => some i.message
  | .notYaml p => some ("Invalid YAML in " ++ p)
  | .notMapping p => some (p ++ " must contain a mapping")
  | .problem p f => some (withDetail ("Invalid problem file " ++ p) f)
  | .network p f => some (withDetail ("Invalid network file " ++ p) f)
  | .noItems => some "Problem file has no items to plan for"
  | .unopened p r => some ("Could not open file " ++ Display.quote p ++ ": " ++ r)
  | .unexpected _ => none
  | .interrupted _ _ => none

def exitCode : Failure → Nat
  | .usage _ => 2
  | _ => 1

end Failure

structure Report where
  output : Output
  exitCode : Nat

abbrev Run := Except Failure

def Failure.ofUsage : UsageError → Failure
  | .unnameablePath => .unexpected .malformed
  | e => .usage e

def passOn {α : Type} : Except Fault α → Run α
  | .ok a => .ok a
  | .error f => .error (.unexpected f)

/-- The mapping of a YAML file; what counts as false is an empty one. -/
def readMapping (folder : Folder) (path : String) : Run Linked :=
  match folder path with
  | .file text =>
    let shown := Path.normal path
    match Yaml.read text with
    | .error .notYaml => .error (.notYaml shown)
    | .error f => .error (.unexpected f)
    | .ok (.dict l entries) => .ok (.dict l entries)
    | .ok v => if v.truthy then .error (.notMapping shown) else .ok (.dict 0 [])
  | _ => .error (.usage (.invalidValue [] (.noFile path)))

def openOutput (folder : Folder) (target : String) : Run (Option String) :=
  if target == "-" then .ok none
  else
    match folder target, folder.obstacle? target with
    | .unnameable, _ => .error (.unexpected .malformed)
    | _, some reason => .error (.unopened target reason)
    | _, none => .ok (some target)

def writeValue (folder : Folder) (target : String) (v : Value) : Run Output := do
  let target ← openOutput folder target
  let written := v.write (.indented "  ") 0
  match written.fault with
  | none => return { target, text := written.text ++ "\n" }
  | some f => throw (.interrupted f { target, text := written.text })

end CommandLine

end Chronoplan
