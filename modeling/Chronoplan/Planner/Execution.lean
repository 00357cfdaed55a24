import Chronoplan.Planner.Search

/-!
# Planning runs

A dry run is one search. A run that carries its commands out alternates: it searches, carries out
the commands of the plan one after the other, and when one fails, it blacklists the command and
searches again from the live state. Commands that were carried out stay at the front of every
later plan and their times stay booked.
-/

set_option autoImplicit false

namespace Chronoplan

structure Plan where
  commands : List Call
  finalState : State
  schedule : List Action
  network : Network

structure PlanResult where
  plan : Except Failure Plan
  stats : Stats
  /-- In milliseconds. -/
  elapsed : Int
  events : List Event

structure Live where
  state : State
  executed : List Call
  schedule : List Action
  network : Network

def Node.toPlan (n : Node) : Plan :=
  { commands := n.commands, finalState := n.state, schedule := n.schedule, network := n.network }

namespace Live

def start (s : State) (n : Network) : Live :=
  { state := s, executed := [], schedule := [], network := n }

def root (l : Live) (entries : List Entry) : Node :=
  { state := l.state
    pending := entries.map fun e => .work e 0
    network := l.network
    commands := l.executed
    schedule := l.schedule
    cursor := match l.schedule.getLast? with
      | some a => a.finish
      | none => .int 0 }

/-- Carries a command out by its actuator or, lacking one, by the command function itself. -/
def actuate (d : Domain) (s : State) (c : Call) : Except Fault (Option State) := do
  let f ← match ← Domain.registered? c.name d.actuators with
    | some f => pure f
    | none => orFault .unknownKey (← Domain.registered? c.name d.commands)
  match ← f.run s c.args with
  | .state s => return some s
  | .lasting e => return some e.state
  | _ => return none

/-- Books what was carried out. Its text was written when it was planned. -/
def keep (l : Live) (c : Call) (a : Action) : Except Fault Live := do
  let duration ← subNumbers a.finish a.start
  let network ← l.network.addInterval {
    id := bookingName c l.executed.length
    duration := .num duration
    start := .num a.start
    finish := .null
    metadata := .dict [(.str "command", .str c.text)] }
  return { l with network, schedule := l.schedule ++ [a] }

def nextAction (c : Call) : List Action → Option Action × List Action
  | a :: rest => if a.command.same c then (some a, rest) else (none, a :: rest)
  | [] => (none, [])

def carryOut (d : Domain) : List Call → List Action → Live → Except Fault (Live × Option Call)
  | [], _, l => .ok (l, none)
  | c :: rest, planned, l => do
    let (action, planned) := nextAction c planned
    match ← actuate d l.state c with
    | none => return (l, some c)
    | some s =>
      let l ← match action with
        | some a => l.keep c a
        | none => pure l
      carryOut d rest planned { l with state := s, executed := l.executed ++ [c] }

end Live

def Journal.replan (j : Journal) (failed : Call) : Journal :=
  let j := { j with stats := { j.stats with replans := j.stats.replans + 1 } }
  j.log "REPLAN" [("failed", .str failed.text), ("replans", .int j.stats.replans)]
    (some failed.text) 0 none

def replanLimit (limit : Int) (failed : Call) : Failure :=
  { reason := {
      kind := .searchExhausted
      message := "Replan limit " ++ toString limit ++ " reached"
      item := some (.command failed) }
    causes := [{
      kind := .blacklisted
      message := failed.text ++ ": command failed during execution"
      item := some (.command failed) }] }

/-- Plans and carries out; after a failing command the given number of further plans is allowed. -/
def runLive (ctx : Setting) (entries : List Entry) :
    Nat → Live → Journal → Except Fault (Except Failure Plan × Journal)
  | replans, l, j => do
    match ← search ctx (l.root entries) j with
    | (.failed f, j) => return (.error f, j)
    | (.found n, j) =>
      let commands := n.commands.drop l.executed.length
      let planned := n.schedule.drop l.schedule.length
      match ← Live.carryOut ctx.domain commands planned l with
      | (l, none) => return (.ok { n.toPlan with finalState := l.state }, j)
      | (l, some failed) =>
        let blacklist ← ctx.blacklist.add failed
        let j := j.replan failed
        match replans with
        | 0 =>
          requireWritable (Value.int ctx.config.budgets.maxReplans).isWritable
          return (.error (replanLimit ctx.config.budgets.maxReplans failed), j)
        | replans + 1 => runLive { ctx with blacklist } entries replans l j

def runDry (ctx : Setting) (entries : List Entry) (l : Live) (j : Journal) :
    Except Fault (Except Failure Plan × Journal) := do
  match ← search ctx (l.root entries) j with
  | (.failed f, j) => return (.error f, j)
  | (.found n, j) => return (.ok n.toPlan, j)

def plan (clock : Clock) (d : Domain) (config : PlannerConfig) (s : State)
    (entries : List Entry) : Except Fault PlanResult := do
  d.validate
  let ctx : Setting := { domain := d, config, blacklist := [], clock }
  let l := Live.start s config.network
  let j := Journal.new config.includeTrace
  let (plan, j) ←
    if config.execute then runLive ctx entries config.budgets.maxReplans.toNat l j
    else runDry ctx entries l j
  return { plan, stats := j.stats, elapsed := clock.total j.stats, events := j.trace.events }

namespace Stats

def toValue (s : Stats) (elapsed : Int) : Value :=
  .dict [(.str "steps", .int s.steps), (.str "backtracks", .int s.backtracks),
    (.str "max_depth", .int s.maxDepth), (.str "commands_applied", .int s.applied),
    (.str "elapsed_ms", .int elapsed), (.str "replans", .int s.replans)]

end Stats

def Action.toValue (time : Number → Value) (a : Action) : Value :=
  .dict [(.str "command", (WorkItem.command a.command).toValue), (.str "start", time a.start),
    (.str "end", time a.finish)]

def PlanResult.toValue (time : Number → Value) (r : PlanResult) : Except Fault Value := do
  let head (success : Bool) : List (Value × Value) := [(.str "success", .bool success)]
  let tail (failure : Value) : List (Value × Value) :=
    [(.str "stats", r.stats.toValue r.elapsed), (.str "failure", failure)]
  match r.plan with
  | .error f =>
    return .dict (head false
      ++ [(.str "plan", .null), (.str "schedule", .list []), (.str "final_state", .null)]
      ++ tail (← f.toValue))
  | .ok p =>
    return .dict (head true
      ++ [(.str "plan", .list (p.commands.map fun c => (WorkItem.command c).toValue)),
        (.str "schedule", .list (p.schedule.map (Action.toValue time))),
        (.str "final_state", ← p.finalState.toValue)]
      ++ tail .null)

end Chronoplan
