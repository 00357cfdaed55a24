import Chronoplan.State

/-!
# Work items

What a planner works on: commands, which are carried out, tasks, which are refined, and goals,
which are facts to be brought about, one or several at once. `WorkItem.ofValue` reads the mapping
that stands for an item in a problem file and `WorkItem.toValue` writes it.
-/

set_option autoImplicit false

namespace Chronoplan

/-- A name with arguments. A name is a text as a rule, but any value can stand in its place. -/
structure Call where
  name : Value
  args : List Value

structure Unigoal where
  predicate : Value
  entity : Value
  target : Value

structure Multigoal where
  goals : List Unigoal
  tag : Value

inductive Goal
  | single (g : Unigoal)
  | several (m : Multigoal)

inductive WorkItem
  | command (c : Call)
  | task (t : Call)
  | goal (g : Goal)

namespace Call

def text (c : Call) : String :=
  c.name.text ++ "(" ++ ", ".intercalate (c.args.map Value.text) ++ ")"

def isWritable (c : Call) : Bool := c.name.isWritable && Value.areWritable c.args

def same (a b : Call) : Bool := a.name.alike b.name && Value.eqAll a.args b.args

end Call

def Unigoal.text (g : Unigoal) : String :=
  g.predicate.text ++ "[" ++ g.entity.text ++ "] = " ++ g.target.text

def Multigoal.text (m : Multigoal) : String :=
  "multigoal" ++ (if m.tag.truthy then "<" ++ m.tag.text ++ ">" else "")
    ++ "(" ++ " & ".intercalate (m.goals.map Unigoal.text) ++ ")"

def Goal.text : Goal → String
  | .single g => g.text
  | .several m => m.text

def Unigoal.isWritable (g : Unigoal) : Bool :=
  g.predicate.isWritable && g.entity.isWritable && g.target.isWritable

def Multigoal.isWritable (m : Multigoal) : Bool :=
  (!m.tag.truthy || m.tag.isWritable) && m.goals.all Unigoal.isWritable

def Goal.isWritable : Goal → Bool
  | .single g => g.isWritable
  | .several m => m.isWritable

inductive ItemKind
  | command
  | task
  | unigoal
  | multigoal
deriving DecidableEq

namespace ItemKind

def all : List ItemKind := [.command, .task, .unigoal, .multigoal]

def name : ItemKind → String
  | .command => "COMMAND"
  | .task => "TASK"
  | .unigoal => "UNIGOAL"
  | .multigoal => "MULTIGOAL"

def ordinal (k : ItemKind) : Nat := all.idxOf k + 1

def word : ItemKind → String
  | .command => "command"
  | .task => "task"
  | .unigoal => "unigoal"
  | .multigoal => "multigoal"

end ItemKind

namespace WorkItem

def text : WorkItem → String
  | .command c => c.text
  | .task t => t.text
  | .goal g => g.text

def isWritable : WorkItem → Bool
  | .command c => c.isWritable
  | .task t => t.isWritable
  | .goal g => g.isWritable

def kind : WorkItem → ItemKind
  | .command _ => .command
  | .task _ => .task
  | .goal (.single _) => .unigoal
  | .goal (.several _) => .multigoal

def name : WorkItem → Value
  | .command c => c.name
  | .task t => t.name
  | .goal (.single g) => g.predicate
  | .goal (.several m) => m.tag

def callValue (word : String) (c : Call) : Value :=
  .dict [(.str word, c.name), (.str "args", .list c.args)]

def toValue : WorkItem → Value
  | .command c => callValue "command" c
  | .task t => callValue "task" t
  | .goal (.single g) =>
    .dict [(.str "unigoal", g.predicate), (.str "entity", g.entity),
      (.str "target", g.target)]
  | .goal (.several m) =>
    .dict [(.str "multigoal",
        .list (m.goals.map fun g => .list [g.predicate, g.entity, g.target])),
      (.str "tag", m.tag)]

def entityOf : Value → Value
  | .list xs => .tuple xs
  | v => v

def goalEntry (entry : Value) : Except Fault Unigoal :=
  let goalOf (parts : List Value) : Except Fault Unigoal :=
    match parts with
    | [p, e, t] => do return { predicate := .str (← p.spell), entity := entityOf e, target := t }
    | _ => .error (.goalShape entry)
  match entry with
  | .list parts => goalOf parts
  | .tuple parts => goalOf parts
  | _ => .error (.goalShape entry)

def unigoalOf (data predicate : Value) : Except Fault Unigoal :=
  match data.field? "entity", data.field? "target" with
  | some e, some t => do
    return { predicate := .str (← predicate.spell), entity := entityOf e, target := t }
  | some _, none => .error (.missingGoalParts predicate ["target"])
  | none, some _ => .error (.missingGoalParts predicate ["entity"])
  | none, none => .error (.missingGoalParts predicate ["entity", "target"])

def argsOf (data : Value) : Except Fault (List Value) :=
  match data.field? "args" with
  | none => .ok []
  | some (.list xs) => .ok xs
  | some (.tuple xs) => .ok xs
  | some _ => .error (.argumentShape data)

/-- The item that a mapping describes. Of several descriptions in one mapping a command wins over
a task, a task over a single goal and a single goal over several. -/
def ofValue (data : Value) : Except Fault WorkItem :=
  match data with
  | .dict _ => do
    let args ← argsOf data
    match data.field? "command", data.field? "task", data.field? "unigoal",
      data.field? "multigoal" with
    | some c, _, _, _ => return .command { name := .str (← c.spell), args }
    | none, some t, _, _ => return .task { name := .str (← t.spell), args }
    | none, none, some p, _ => return .goal (.single (← unigoalOf data p))
    | none, none, none, some entries => do
      let goals ← (← entries.elements).mapM goalEntry
      let tag := (data.field? "tag").getD (.str "")
      return .goal (.several { goals, tag := .str (← tag.spell) })
    | none, none, none, none => throw (.unrecognizedItem data)
  | _ => .error (.itemShape data)

def listOfValue (data : Value) : Except Fault (List WorkItem) := do
  (← data.elements).mapM ofValue

end WorkItem

end Chronoplan
