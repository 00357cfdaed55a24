import Chronoplan.Network.Basic
import Chronoplan.Planner.Search
import Chronoplan.Settings.Field
import Chronoplan.Settings.Tree

/-!
# Sections of the settings

A section is read into a record field by field. Fields that are missing have their standard
value, unknown ones are ignored, and all misfits of a section are reported together.
-/

set_option autoImplicit false

namespace Chronoplan

structure PlannerSettings where
  budgets : Budgets
  includeTrace : Bool
  verifyGoals : Bool
  execute : Bool

structure NetworkSettings where
  unit : TimeUnit
  detail : Detail
  parallel : Bool
  workers : Int

abbrev FieldReader := StateM (List FieldIssue)

/-- The field of a name; the standard value stands in for a missing one, and for a misfit until
it is reported. -/
def readField {α : Type} (entries : Value) (name : String) (standard : α)
    (read : Value → Except Misfit α) : FieldReader α := do
  match entries.field? name with
  | none => return standard
  | some v =>
    match read v with
    | .ok a => return a
    | .error m =>
      modify (· ++ [{ path := [name], misfit := m }])
      return standard

namespace Settings

def readPlanner (e : Value) : FieldReader PlannerSettings := do
  let b := Budgets.standard
  return {
    budgets := {
      maxSteps := ← readField e "max_steps" b.maxSteps (Field.readAtLeast 1)
      time := ← readField e "time_budget_ms" b.time (Field.readAtLeast 1)
      maxDepth := ← readField e "max_depth" b.maxDepth (Field.readAtLeast 1)
      maxBacktracks := ← readField e "max_backtracks" b.maxBacktracks (Field.readAtLeast 0)
      maxReplans := ← readField e "max_replans" b.maxReplans (Field.readAtLeast 0) }
    includeTrace := ← readField e "include_trace" true Field.readTruth
    verifyGoals := ← readField e "verify_goals" true Field.readTruth
    execute := ← readField e "execute" false Field.readTruth }

def readNetwork (e : Value) : FieldReader NetworkSettings := do
  return {
    unit := ← readField e "time_unit" .second (Field.readName TimeUnit.ofName?)
    detail := ← readField e "lod_level" .medium (Field.readName Detail.ofName?)
    parallel := ← readField e "parallel" false Field.readTruth
    workers := ← readField e "workers" 4 (Field.readAtLeast 1) }

/-- A section that has to be a mapping; one that counts as false is empty. -/
def readSection {α : Type} (s : Settings) (name model : String) (read : Value → FieldReader α) :
    Except Fault α :=
  let given := (lookup (.str name) s.entries).map Linked.toValue
  let v := (given.filter Value.truthy).getD (.dict [])
  match v with
  | .dict _ =>
    match (read v).run [] with
    | (a, []) => .ok a
    | (_, issues) => .error (.invalidSettings name model issues)
  | _ => .error (.invalidSettings name model [{ path := [], misfit := .notMapping }])

def planner (s : Settings) : Except Fault PlannerSettings :=
  s.readSection "planner" "PlannerSettings" readPlanner

def networkOptions (s : Settings) : Except Fault NetworkSettings :=
  s.readSection "stn" "NetworkSettings" readNetwork

def network (s : Settings) : Except Fault Network := do
  let o ← s.networkOptions
  return Network.empty o.unit o.detail o.parallel o.workers

def plannerConfig (s : Settings) (given : Option Network) : Except Fault PlannerConfig := do
  let p ← s.planner
  let network ← match given with
    | some n => pure n
    | none => s.network
  return {
    budgets := p.budgets, includeTrace := p.includeTrace, verifyGoals := p.verifyGoals
    execute := p.execute, network }

end Settings

end Chronoplan
