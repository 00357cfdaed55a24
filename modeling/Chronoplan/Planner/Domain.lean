import Chronoplan.Planner.Outcome

/-!
# Planning domains

A domain registers functions under names: one for each command and actuator, and any number of
methods, in the order in which they are to be tried, for each task, goal predicate and multigoal
tag. A registered function carries a serial number, since functions themselves cannot be told
apart; registering one function twice under one name is refused.
-/

set_option autoImplicit false

namespace Chronoplan

structure Callback (α : Type) where
  name : String
  serial : Nat
  run : State → α → Except Fault Outcome

structure Candidate where
  name : String
  run : State → Except Fault Outcome

structure Domain where
  name : String
  readGoal : State → Value → Value → Except Fault Value
  commands : Table String (Callback (List Value))
  tasks : Table String (List (Callback (List Value)))
  unigoals : Table String (List (Callback (Value × Value)))
  multigoals : Table String (List (Callback Multigoal))
  actuators : Table String (Callback (List Value))

/-- Reads a fact under the predicate. A tuple is the fact's entities, and any other entity is its
only one. -/
def readPredicate (s : State) (predicate entity : Value) : Except Fault Value :=
  match entity with
  | .tuple xs => s.get defaultCategory predicate xs
  | e => s.get defaultCategory predicate [e]

def readCategory (category : Value) (s : State) (predicate entity : Value) : Except Fault Value :=
  s.get category predicate [entity]

namespace Domain

def empty (name : String) : Domain :=
  { name, readGoal := readPredicate, commands := [], tasks := [], unigoals := [],
    multigoals := [], actuators := [] }

def named {α : Type} (name : String) (t : Table String α) : Option α :=
  t.find? (· == ·) name

def registered? {α : Type} (name : Value) (t : Table String α) : Except Fault (Option α) :=
  match name with
  | .str s => .ok (named s t)
  | v => if v.isKey then .ok none else .error .illTyped

def addCommand (d : Domain) (name : String) (f : Callback (List Value)) : Except Fault Domain :=
  if (named name d.commands).isSome then .error (.duplicateCommand name d.name)
  else .ok { d with commands := d.commands.insert (· == ·) name f }

def addActuator (d : Domain) (name : String) (f : Callback (List Value)) : Except Fault Domain :=
  if (named name d.actuators).isSome then .error (.duplicateActuator name d.name)
  else .ok { d with actuators := d.actuators.insert (· == ·) name f }

def appendMethod {α : Type} (kind name : String) (f : Callback α)
    (t : Table String (List (Callback α))) : Except Fault (Table String (List (Callback α))) :=
  let methods := (named name t).getD []
  if methods.any (fun g => g.serial == f.serial) then .error (.duplicateMethod f.name kind name)
  else .ok (t.insert (· == ·) name (methods ++ [f]))

def addTaskMethod (d : Domain) (name : String) (f : Callback (List Value)) :
    Except Fault Domain := do
  return { d with tasks := ← appendMethod "task" name f d.tasks }

def addUnigoalMethod (d : Domain) (name : String) (f : Callback (Value × Value)) :
    Except Fault Domain := do
  return { d with unigoals := ← appendMethod "unigoal" name f d.unigoals }

def addMultigoalMethod (d : Domain) (tag : String) (f : Callback Multigoal) :
    Except Fault Domain := do
  return { d with multigoals := ← appendMethod "multigoal" tag f d.multigoals }

def fill {α : Type} (a : α) (f : Callback α) : Candidate :=
  { name := f.name, run := fun s => f.run s a }

def candidates (d : Domain) : WorkItem → Except Fault (Option (List Candidate))
  | .command c => do
    return (← registered? c.name d.commands).map fun f => [fill c.args f]
  | .task t => do
    return (← registered? t.name d.tasks).map fun fs => fs.map (fill t.args)
  | .goal (.single g) => do
    return (← registered? g.predicate d.unigoals).map fun fs => fs.map (fill (g.entity, g.target))
  | .goal (.several m) => do
    return (← registered? m.tag d.multigoals).map fun fs => fs.map (fill m)

def unigoalHolds (d : Domain) (s : State) (g : Unigoal) : Except Fault Bool := do
  return (← d.readGoal s g.predicate g.entity).eq g.target

def unachieved (d : Domain) (s : State) (m : Multigoal) : Except Fault (List Unigoal) :=
  m.goals.filterM fun g => do return !(← d.unigoalHolds s g)

def achieved (d : Domain) (s : State) : Goal → Except Fault Bool
  | .single g => d.unigoalHolds s g
  | .several m => do return (← d.unachieved s m).isEmpty

/-- The goals that do not hold, followed by all goals once more in case that some of them are
lost on the way; nothing when all hold. -/
def split (d : Domain) (s : State) (m : Multigoal) : Except Fault (List WorkItem) := do
  match ← d.unachieved s m with
  | [] => return []
  | gs => return gs.map (fun g => .goal (.single g)) ++ [.goal (.several m)]

def validate (d : Domain) : Except Fault Unit :=
  if d.commands.isEmpty then .error (.noCommands d.name)
  else
    match d.actuators.keys.filter fun a => (named a d.commands).isNone with
    | [] => .ok ()
    | orphans =>
      .error (.orphanActuators d.name (insertionSort (fun a b => decide (a < b)) orphans))

def text (d : Domain) : String :=
  "Domain(" ++ Display.quote d.name ++ ", commands=" ++ toString d.commands.length
    ++ ", tasks=" ++ toString d.tasks.length ++ ", unigoals=" ++ toString d.unigoals.length ++ ")"

def registered (d : Domain) : List (String × List String) :=
  [("commands", d.commands.keys), ("tasks", d.tasks.keys), ("unigoals", d.unigoals.keys),
    ("multigoals", d.multigoals.keys), ("actuators", d.actuators.keys)]

end Domain

end Chronoplan
