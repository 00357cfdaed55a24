import Chronoplan.Text.Split
import Chronoplan.Yaml.Document
import Chronoplan.Yaml.Printer

/-!
# Settings

Settings are a tree of mappings whose entries are reached by dotted paths. A file is laid over
the standard settings: where both have a mapping they are joined entry by entry, and elsewhere
the file wins. What a file shares between several places stays shared, so that a later change is
seen in all of them; a joined mapping is a new one.
-/

set_option autoImplicit false

namespace Chronoplan

structure Settings where
  entries : Linked.Entries

namespace Settings

def mapping (entries : List (String × Value)) : Linked :=
  .dict 0 (entries.map fun e => (.str e.1, .leaf 0 e.2))

def standard : Settings where
  entries := [
    (.str "planner", mapping [
      ("max_steps", .int 10000), ("time_budget_ms", .int 60000), ("max_depth", .int 64),
      ("max_backtracks", .int 1000), ("max_replans", .int 3), ("include_trace", .bool true),
      ("verify_goals", .bool true), ("execute", .bool false)]),
    (.str "stn", mapping [
      ("time_unit", .str "second"), ("lod_level", .str "medium"), ("parallel", .bool false),
      ("workers", .int 4)]),
    (.str "logging", mapping [("level", .str "INFO")])]

def lookup (k : Value) (t : Linked.Entries) : Option Linked := Table.find? Value.alike k t

/-! ## Joining -/

def missing (base upper : Linked.Entries) : Linked.Entries :=
  upper.filter fun e => (lookup e.1 base).isNone

mutual

def mergeValue : Linked → Linked → Linked
  | .dict _ base, .dict l upper =>
    let upper := Linked.entries (.dict l upper)
    .dict 0 (mergeEntries base upper ++ missing base upper)
  | _, v => v

def mergeEntries : Linked.Entries → Linked.Entries → Linked.Entries
  | [], _ => []
  | (k, b) :: r, upper =>
    (k, match lookup k upper with
      | some v => mergeValue b v
      | none => b) :: mergeEntries r upper

end

def merge (base upper : Linked.Entries) : Linked.Entries :=
  mergeEntries base upper ++ missing base upper

/-! ## Paths -/

def find? : List String → Linked → Option Linked
  | [], v => some v
  | k :: r, v => v.field? k >>= find? r

def get? (s : Settings) (path : String) : Option Linked :=
  find? (splitText '.' path) (.dict 0 s.entries)

def put (v : Linked) : List String → Linked.Entries → Except Fault Linked.Entries
  | [], t => .ok t
  | [k], t => .ok (t.insert Value.alike (.str k) v)
  | k :: r, t =>
    match lookup (.str k) t with
    | none => do return t.insert Value.alike (.str k) (.dict 0 (← put v r []))
    | some (.dict l inner) => do
      return t.insert Value.alike (.str k) (.dict l (← put v r inner))
    | some _ => .error .illTyped

/-- The innermost shared mapping on the way along a path, and the part of the path inside it. -/
def owner? : List String → Linked.Entries → Option (Nat × List String)
  | [], _ => none
  | [_], _ => none
  | k :: r, t =>
    match lookup (.str k) t with
    | some (.dict l inner) =>
      (owner? r (Linked.entries (.dict l inner))).or (if l = 0 then none else some (l, r))
    | _ => none

/-- Writes a value at a dotted path, and wherever a shared mapping on the way occurs. -/
def set (s : Settings) (path : String) (v : Value) : Except Fault Settings := do
  let keys := splitText '.' path
  let v := Linked.ofValue v
  return { entries := ← match owner? keys s.entries with
    | some (link, inside) => Linked.alterEntries link (put v inside) s.entries
    | none => put v keys s.entries }

def toValue (s : Settings) : Value := .dict (Linked.toEntries s.entries)

/-! ## Files -/

def overrides (path text : String) : Except Fault Linked.Entries :=
  match Yaml.read text with
  | .error .notYaml => .error (.unreadableSettings path)
  | .error f => .error f
  | .ok (.dict l entries) => .ok (Linked.entries (.dict l entries))
  | .ok v => if v.truthy then .error (.settingsShape path) else .ok []

def load (path : String) (text : Option String) : Except Fault Settings := do
  let text ← orFault (.unreadableSettings path) text
  return { entries := merge standard.entries (← overrides path text) }

def ofFile (path : String) : Option String → Except Fault Settings
  | none => .ok standard
  | text => load path text

def fileText (s : Settings) : Except Fault String := Yaml.writeMapping s.entries

end Settings

end Chronoplan
