import Chronoplan.Planner.Domain
import Chronoplan.Script.Expr

/-!
# Rules of domain scripts

A script function is a list of clauses; the first whose condition holds gives the outcome. All
expressions of an outcome are evaluated in the state of the call, and effects are written one
after the other into a new state.
-/

set_option autoImplicit false

namespace Chronoplan

namespace Script

inductive Effect
  | set (name : Value) (entities : List Expr) (value : Expr) (category : Value)
  | del (name : Value) (entities : List Expr) (category : Value)

inductive Template
  | command (name args : Expr)
  | task (name args : Expr)
  | unigoal (predicate entity target : Expr)
  | multigoal (goals : List (Expr × Expr × Expr)) (tag : Expr)
  | self
  | goal (place : Int)
  | pending
  | raw (e : Expr)

structure Timing where
  duration : Expr
  deadline : Expr
  release : Expr

inductive Rule
  | effects (es : List Effect) (timing : Option Timing)
  | items (ts : List Template) (asTuple : Bool)
  | fail (e : Expr)
  | split
  | notApplicable
  | raise (e : Expr)
  | value (e : Expr)

structure Clause where
  condition : Option Expr
  rule : Rule

structure Function where
  name : String
  params : List String
  body : List Clause

structure Frame where
  domain : Domain
  state : State
  env : Env
  multigoal : Option Multigoal

def Frame.eval (f : Frame) (e : Expr) : Except Fault Value := e.eval f.state f.env

def Effect.apply (f : Frame) (s : State) : Effect → Except Fault State
  | .set name entities value category => do
    let entities ← entities.mapM f.eval
    s.set category name entities (← f.eval value)
  | .del name entities category => do s.remove category name (← entities.mapM f.eval)

def Template.call (f : Frame) (name args : Expr) : Except Fault Call := do
  let name ← f.eval name
  return { name, args := ← (← f.eval args).elements }

def Template.goalOf (f : Frame) (g : Expr × Expr × Expr) : Except Fault Unigoal := do
  let predicate ← f.eval g.1
  let entity ← f.eval g.2.1
  return { predicate, entity, target := ← f.eval g.2.2 }

def Frame.self (f : Frame) : Except Fault Multigoal := orFault .unknownKey f.multigoal

def singleEntry (g : Unigoal) : Entry := .item (.goal (.single g))

def Template.entries (f : Frame) : Template → Except Fault (List Entry)
  | .command name args => do return [.item (.command (← Template.call f name args))]
  | .task name args => do return [.item (.task (← Template.call f name args))]
  | .unigoal p e t => do return [singleEntry (← Template.goalOf f (p, e, t))]
  | .multigoal gs tag => do
    let goals ← gs.mapM (Template.goalOf f)
    return [.item (.goal (.several { goals, tag := ← f.eval tag }))]
  | .self => do return [.item (.goal (.several (← f.self)))]
  | .goal place => do
    let goals := (← f.self).goals
    let i := if place < 0 then goals.length + place else place
    if i < 0 then throw .indexOutOfRange
    return [singleEntry (← orFault .indexOutOfRange goals[i.toNat]?)]
  | .pending => do return (← f.domain.unachieved f.state (← f.self)).map singleEntry
  | .raw e => do return [.other (← f.eval e)]

def Rule.outcome (f : Frame) : Rule → Except Fault Outcome
  | .effects es timing => do
    let state ← es.foldlM (Effect.apply f) f.state
    match timing with
    | none => return .state state
    | some t =>
      let duration ← f.eval t.duration
      let deadline ← f.eval t.deadline
      return .lasting { state, duration, deadline, release := ← f.eval t.release }
  | .items ts asTuple => do return .items (← ts.mapM (Template.entries f)).flatten asTuple
  | .fail e => do return .refused (← f.eval e)
  | .split => do
    return .items ((← f.domain.split f.state (← f.self)).map .item) false
  | .notApplicable => .ok .notApplicable
  | .raise e => do throw (.raised (← (← f.eval e).spell))
  | .value e => do return .value (← f.eval e)

def Frame.run (f : Frame) : List Clause → Except Fault Outcome
  | [] => .ok (.value .null)
  | c :: rest => do
    let holds ← match c.condition with
      | none => pure true
      | some e => do pure (← f.eval e).truthy
    if holds then c.rule.outcome f else f.run rest

/-- Calls a function with as many arguments as it has parameters; of parameters with one name the
last counts. -/
def Function.call (fn : Function) (d : Domain) (s : State) (args : List Value) :
    Except Fault Outcome :=
  if fn.params.length = args.length then
    Frame.run
      { domain := d, state := s, env := (fn.params.zip args).reverse, multigoal := none } fn.body
  else .error .illTyped

/-- Calls a function for a multigoal; its parameters play no part. -/
def Function.callMultigoal (fn : Function) (d : Domain) (s : State) (m : Multigoal) :
    Except Fault Outcome :=
  Frame.run { domain := d, state := s, env := [], multigoal := some m } fn.body

end Script

end Chronoplan
