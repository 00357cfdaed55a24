import Chronoplan.Script.Reader
import Chronoplan.Text.Split

/-!
# Libraries of domains

A library has modules, and a module has exports of various kinds under their names. A domain is
asked for as `module:name`.
-/

set_option autoImplicit false

namespace Chronoplan

/-- What a module may hold under a name: a way to make a domain, a domain, a way to make some
other value, or such a value. The domains are given as scripts. -/
inductive Export
  | factory (script : Value)
  | domain (script : Value)
  | valueFactory (v : Value)
  | value (v : Value)

abbrev Library := List (String × List (String × Export))

inductive DomainRequestIssue
  | shape (spec : String)
  | noModule (name detail : String)
  | noExport (moduleName name : String)
  | notDomain (spec : String)

namespace DomainRequestIssue

def message : DomainRequestIssue → String
  | .shape s => "Domain must look like 'module:factory', got " ++ Display.quote s
  | .noModule n d => "Cannot import domain module " ++ Display.quote n ++ ": " ++ d
  | .noExport m n => "Module " ++ Display.quote m ++ " has no attribute " ++ Display.quote n
  | .notDomain s => s ++ " did not produce a Domain"

end DomainRequestIssue

namespace Library

def module? (l : Library) (name : String) : Option (List (String × Export)) :=
  (l.find? fun m => m.1 == name).map Prod.snd

def beginnings (name : String) : List String :=
  let parts := splitText '.' name
  (List.range parts.length).map fun i => ".".intercalate (parts.take (i + 1))

def absence (l : Library) (name : String) : String :=
  let known := (beginnings name).takeWhile fun n => (l.module? n).isSome
  let missing := ((beginnings name).drop known.length).headD name
  "No module named " ++ Display.quote missing
    ++ (match known.getLast? with
      | some m => "; " ++ Display.quote m ++ " is not a package"
      | none => "")

def splitRequest (spec : String) : Option (String × String) :=
  let cs := spec.toList
  let moduleName := cs.takeWhile (· != ':')
  let name := cs.drop (moduleName.length + 1)
  if moduleName.isEmpty || name.isEmpty then none
  else some (String.ofList moduleName, String.ofList name)

/-- The domain of an export, if it is one. Making a domain may fail, and a plain value cannot be
asked to make one. -/
def Export.domain? : Export → Except Fault (Option Domain)
  | .factory s => some <$> Script.readDomain s
  | .domain s => some <$> Script.readDomain s
  | .valueFactory _ => .ok none
  | .value _ => .error .illTyped

def commonMakers : List String :=
  ["__repr__", "__str__", "__hash__", "__dir__", "__sizeof__", "__init_subclass__",
    "__subclasshook__", "__getstate__"]

def commonNames : List String :=
  ["__name__", "__dict__", "__class__", "__annotations__", "__init__", "__new__", "__reduce__",
    "__reduce_ex__", "__getattribute__", "__setattr__", "__delattr__", "__format__", "__eq__",
    "__ne__", "__lt__", "__le__", "__gt__", "__ge__"]

def common? (name : String) : Option Export :=
  if commonMakers.contains name then some (.valueFactory .null)
  else if commonNames.contains name then some (.value (.str name))
  else none

def export? (exports : List (String × Export)) (name : String) : Option Export :=
  match (exports.find? fun e => e.1 == name).map Prod.snd with
  | some (.value .null) => none
  | some e => some e
  | none => common? name

def isRelative (moduleName : String) : Bool := moduleName.toList.head? == some '.'

def domain (l : Library) (spec : String) : Except Fault (Except DomainRequestIssue Domain) := do
  match splitRequest spec with
  | none => return .error (.shape spec)
  | some (moduleName, name) =>
    if isRelative moduleName then throw .illTyped
    match l.module? moduleName with
    | none => return .error (.noModule moduleName (l.absence moduleName))
    | some exports =>
      match export? exports name with
      | none => return .error (.noExport moduleName name)
      | some e =>
        match ← Export.domain? e with
        | some d => return .ok d
        | none => return .error (.notDomain spec)

/-! ## Libraries as files -/

def exportOf (v : Value) : Except Fault Export :=
  match v with
  | .dict [(.str "factory", s)] => .ok (.factory s)
  | .dict [(.str "instance", s)] => .ok (.domain s)
  | .dict [(.str "factory_value", x)] => .ok (.valueFactory x)
  | .dict [(.str "value", x)] => .ok (.value x)
  | _ => .error .malformed

def exportsOf (v : Value) : Except Fault (List (String × Export)) :=
  match v with
  | .dict entries => entries.mapM fun e => do
    return (← orFault .malformed e.1.text?, ← exportOf e.2)
  | _ => .error .malformed

end Library

end Chronoplan
