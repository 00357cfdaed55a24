import Chronoplan.Network.Slot
import Chronoplan.Planner.Blacklist
import Chronoplan.Planner.Domain
import Chronoplan.Planner.Failure
import Chronoplan.Planner.Trace

/-!
# Depth-first search for a plan

A search node holds all that a branch owns: a state, a work list, a network with the bookings of
its durative commands, the commands so far and their schedule. `Search.step` treats the front of
the work list. An item with several methods leaves a choice point behind, which keeps the node
and the methods not yet tried; a failing branch resumes the newest choice point. Steps are counted
and the count is limited, so `Search.run` recurses on the steps that remain.
-/

set_option autoImplicit false

namespace Chronoplan

structure Budgets where
  maxSteps : Int
  /-- In milliseconds. -/
  time : Int
  maxDepth : Int
  maxBacktracks : Int
  maxReplans : Int

def Budgets.standard : Budgets :=
  { maxSteps := 10000, time := 60000, maxDepth := 64, maxBacktracks := 1000, maxReplans := 3 }

structure PlannerConfig where
  budgets : Budgets
  includeTrace : Bool
  verifyGoals : Bool
  execute : Bool
  network : Network

def PlannerConfig.standard : PlannerConfig :=
  { budgets := Budgets.standard, includeTrace := true, verifyGoals := true, execute := false,
    network := Network.standard }

structure Action where
  command : Call
  start : Number
  finish : Number

structure Stats where
  steps : Nat
  backtracks : Nat
  maxDepth : Nat
  applied : Nat
  replans : Nat

def Stats.zero : Stats := { steps := 0, backtracks := 0, maxDepth := 0, applied := 0, replans := 0 }

/-- The milliseconds since a run began, as they are read at every check of the budgets, when one is
found used up and at the end. The counts of the run differ from check to check, so a function of
them can be any course of time. -/
structure Clock where
  check : Stats → Int
  report : Stats → Int
  total : Stats → Int

def Clock.stopped : Clock := { check := fun _ => 0, report := fun _ => 0, total := fun _ => 0 }

structure Journal where
  stats : Stats
  trace : Trace
  warned : Bool

inductive Pending
  | work (e : Entry) (depth : Nat)
  /-- Marks the end of a goal's refinement, after which the goal has to hold. -/
  | verify (g : Goal) (depth : Nat)

structure Node where
  state : State
  pending : List Pending
  network : Network
  commands : List Call
  schedule : List Action
  cursor : Number

/-- An item with the methods for it that have not been tried. The node's work list begins after
the item. -/
structure ChoicePoint where
  node : Node
  item : WorkItem
  depth : Nat
  untried : List Candidate

structure Setting where
  domain : Domain
  config : PlannerConfig
  blacklist : Blacklist
  clock : Clock

namespace Pending

def depth : Pending → Nat
  | .work _ d => d
  | .verify _ d => d

def text : Pending → String
  | .work e _ => e.text
  | .verify g _ => "verify " ++ g.text

end Pending

namespace Journal

def new (traced : Bool) : Journal :=
  { stats := Stats.zero, trace := Trace.new traced, warned := false }

def log (j : Journal) (kind : String) (data : List (String × Value)) (item : Option String)
    (depth : Nat) (method : Option String) : Journal :=
  let event : Event :=
    { kind, data := .dict (data.map fun e => (.str e.1, e.2)), item, method, depth }
  { j with trace := j.trace.log event }

def countStep (j : Journal) : Journal :=
  { j with stats := { j.stats with steps := j.stats.steps + 1 } }

def reachDepth (j : Journal) (depth : Nat) : Journal :=
  { j with stats := { j.stats with maxDepth := max j.stats.maxDepth depth } }

def goalEvent (j : Journal) (kind : String) (g : Goal) (depth : Nat) : Journal :=
  j.log kind [("goal", .str g.text)] (some g.text) depth none

def commandApplied (j : Journal) (c : Call) (depth : Nat) : Journal :=
  log { j with stats := { j.stats with applied := j.stats.applied + 1 } }
    "COMMAND_APPLIED" [("command", .str c.text)] (some c.text) depth none

def commandFailed (j : Journal) (c : Call) (kind : FailureKind) (reason : Value) (depth : Nat) :
    Journal :=
  j.log "COMMAND_FAILED"
    [("command", .str c.text), ("kind", .str kind.name), ("reason", reason)]
    (some c.text) depth none

def methodDeclined (j : Journal) (item : WorkItem) (method : String) (depth : Nat) : Journal :=
  j.log "METHOD_DECLINED" [("item", .str item.text)] (some item.text) depth (some method)

def methodSelected (j : Journal) (item : WorkItem) (method : String) (expansion : List Entry)
    (depth : Nat) : Journal :=
  j.log "METHOD_SELECTED"
    [("item", .str item.text), ("expansion", .list (expansion.map fun e => .str e.text))]
    (some item.text) depth (some method)

def warn (j : Journal) (limit : Int) : Journal :=
  if limit ≤ j.stats.backtracks ∧ j.warned = false then
    log { j with warned := true } "SOFT_BUDGET_BACKTRACKS"
      [("count", .int j.stats.backtracks), ("limit", .int limit)] none 0 none
  else j

def backtrack (j : Journal) (limit : Int) (r : Reason) (p : Pending) : Journal :=
  let j := { j with stats := { j.stats with backtracks := j.stats.backtracks + 1 } }
  let j := j.log "BACKTRACK"
    [("kind", .str r.kind.name), ("reason", .str r.message),
      ("backtrack_count", .int j.stats.backtracks)]
    (some p.text) p.depth none
  j.warn limit

end Journal

def bookingName (c : Call) (place : Nat) : String := c.name.text ++ "@" ++ toString place

def earliestStart (cursor : Number) (release : Value) : Except Fault Number :=
  match release with
  | .null => .ok cursor
  | .num r => .ok (cursor.max r)
  | _ => .error .illTyped

def leastDuration (duration : Value) : Except Fault Value :=
  match durationParts duration with
  | [lo, _] => .ok lo
  | _ => .error .malformed

def Network.limit (n : Network) (p : String) (given : Value) (bound : Value → Value × Value) :
    Except Fault Network :=
  match given with
  | .null => .ok n
  | v => n.addConstraint originPoint p (bound v).1 (bound v).2

def book (n : Network) (c : Call) (place : Nat) (e : Lasting) (start : Number) :
    Except Fault Network := do
  requireWritable c.isWritable
  let id := bookingName c place
  let n ← n.addInterval {
    id
    duration := .tuple (durationParts e.duration)
    start := .num start
    finish := .null
    metadata := .dict [(.str "command", .str c.text)] }
  let n ← n.limit (endPoint id) e.deadline fun d => (.num .negInf, d)
  n.limit (startPoint id) e.release fun r => (r, .num .posInf)

def networkFailure (c : Call) (message : String) : Reason :=
  { kind := .inconsistentNetwork, message, item := some (.command c) }

/-- Places a durative command in the first free slot after the latest action and its release
time, and checks the network with its booking. -/
def place (node : Node) (c : Call) (e : Lasting) :
    Except Fault (Except Reason (Network × Action)) := do
  let duration ← leastDuration e.duration
  let earliest ← earliestStart node.cursor e.release
  match ← node.network.nextSlot duration earliest none with
  | none =>
    requireWritable (duration.isWritable && c.isWritable && earliest.isWritable)
    return .error (networkFailure c ("No free slot of length " ++ duration.text ++ " for " ++ c.text
      ++ " after " ++ earliest.text))
  | some slot =>
    let start := slot.start
    let finish ← addNumbers start (← orFault .illTyped duration.number?)
    let conflicts ← node.network.overlapping start finish
    if !conflicts.isEmpty then
      requireWritable (c.isWritable && start.isWritable && finish.isWritable)
      return .error (networkFailure c (c.text ++ " at [" ++ start.text ++ ", " ++ finish.text
        ++ ") conflicts with " ++ ", ".intercalate (conflicts.map Interval.id)))
    let network ← book node.network c node.commands.length e start
    match (← network.check).reason with
    | some reason =>
      return .error (networkFailure c
        (c.text ++ " makes the temporal network inconsistent: " ++ reason))
    | none => return .ok (network, { command := c, start, finish })

inductive Advance
  | node (n : Node)
  | failed (r : Reason)
  | fatal (r : Reason)

def refusal (c : Call) (kind : FailureKind) (reason : Value) (depth : Nat) (j : Journal) :
    Except Fault (Advance × Journal) := do
  requireWritable (c.isWritable && reason.isWritable)
  return (.failed { kind, message := c.text ++ ": " ++ reason.text, item := some (.command c) },
    j.commandFailed c kind reason depth)

def Node.after (node : Node) (c : Call) (s : State) (rest : List Pending) : Node :=
  { node with state := s, pending := rest, commands := node.commands ++ [c] }

def Node.booked (node : Node) (network : Network) (a : Action) : Node :=
  { node with network, schedule := node.schedule ++ [a], cursor := a.finish }

def applyCommand (ctx : Setting) (node : Node) (c : Call) (depth : Nat) (rest : List Pending)
    (j : Journal) : Except Fault (Advance × Journal) := do
  match ← Domain.registered? c.name ctx.domain.commands with
  | none =>
    requireWritable c.name.isWritable
    let message := "No command registered for " ++ c.name.display
    return (.fatal { kind := .unknownMethod, message, item := some (.command c) }, j)
  | some f =>
    if ← ctx.blacklist.contains c then
      return ← refusal c .blacklisted (.str "command failed during execution") depth j
    let outcome ← f.run node.state c.args
    if outcome.declined then
      return ← refusal c .commandPrecondition (.str defaultReason) depth j
    match outcome with
    | .refused reason => refusal c .commandPrecondition reason depth j
    | .state s =>
      requireWritable c.isWritable
      return (.node (node.after c s rest), j.commandApplied c depth)
    | .lasting e =>
      match ← place node c e with
      | .error r => return (.failed r, j.commandFailed c r.kind (.str r.message) depth)
      | .ok (network, action) =>
        return (.node ((node.after c e.state rest).booked network action),
          j.commandApplied c depth)
    | other => throw (.commandResult c.name other.kindName)

/-- The work list of a refinement: its items one level deeper and, for a goal that is to be
verified, the mark that it is complete. -/
def spliced (ctx : Setting) (item : WorkItem) (expansion : List Entry) (depth : Nat) :
    List Pending :=
  let items := expansion.map fun e => Pending.work e (depth + 1)
  match item with
  | .goal g => if ctx.config.verifyGoals then items ++ [.verify g depth] else items
  | _ => items

/-- Tries methods in order until one does not decline. The result has its refinement and the
methods after it. -/
def firstApplicable (item : WorkItem) (depth : Nat) (s : State) :
    List Candidate → Journal → Except Fault (Option (List Entry × List Candidate) × Journal)
  | [], j => .ok (none, j)
  | m :: rest, j => do
    let outcome ← m.run s
    if outcome.declined then
      requireWritable item.isWritable
      firstApplicable item depth s rest (j.methodDeclined item m.name depth)
    else
      match outcome.expansion? with
      | none => throw (.methodResult m.name outcome.kindName)
      | some expansion =>
        requireWritable (item.isWritable && expansion.all Entry.isWritable)
        return (some (expansion, rest), j.methodSelected item m.name expansion depth)

def resume (ctx : Setting) (p : ChoicePoint) (below : List ChoicePoint) (j : Journal) :
    Except Fault (Advance × List ChoicePoint × Journal) := do
  match ← firstApplicable p.item p.depth p.node.state p.untried j with
  | (some (expansion, untried), j) =>
    let pending := spliced ctx p.item expansion p.depth ++ p.node.pending
    return (.node { p.node with pending }, { p with untried } :: below, j)
  | (none, j) =>
    -- the item's text was written for every method before
    let message := "No applicable method for " ++ p.item.text
    return (.failed { kind := .methodNotApplicable, message, item := some p.item }, below, j)

def refine (ctx : Setting) (node : Node) (item : WorkItem) (depth : Nat) (rest : List Pending)
    (choices : List ChoicePoint) (j : Journal) :
    Except Fault (Advance × List ChoicePoint × Journal) := do
  let methods := (← ctx.domain.candidates item).getD []
  if methods.isEmpty then
    requireWritable item.name.isWritable
    let message := "No methods registered for " ++ item.kind.word ++ " " ++ item.name.display
    return (.fatal { kind := .unknownMethod, message, item := some item }, choices, j)
  else if ctx.config.budgets.maxDepth ≤ depth then
    requireWritable ((Value.int ctx.config.budgets.maxDepth).isWritable && item.isWritable)
    let message := "Depth limit " ++ toString ctx.config.budgets.maxDepth ++ " reached at "
      ++ item.text
    return (.failed { kind := .depthExceeded, message, item := some item }, choices, j)
  else
    resume ctx { node := { node with pending := rest }, item, depth, untried := methods }
      choices j

def advance (ctx : Setting) (node : Node) (front : Pending) (rest : List Pending)
    (choices : List ChoicePoint) (j : Journal) :
    Except Fault (Advance × List ChoicePoint × Journal) := do
  match front with
  | .verify g depth =>
    if ← ctx.domain.achieved node.state g then
      requireWritable g.isWritable
      return (.node { node with pending := rest }, choices, j.goalEvent "GOAL_VERIFIED" g depth)
    else
      requireWritable g.isWritable
      let message := "Expansion finished but " ++ g.text ++ " does not hold"
      return (.failed { kind := .goalNotAchieved, message, item := some (.goal g) }, choices, j)
  | .work (.other v) _ =>
    requireWritable v.isWritable
    let message := "Not a work item: " ++ v.display
    return (.fatal { kind := .unknownMethod, message, item := none }, choices, j)
  | .work (.item (.command c)) depth =>
    let (result, j) ← applyCommand ctx node c depth rest j
    return (result, choices, j)
  | .work (.item (.goal g)) depth =>
    if ← ctx.domain.achieved node.state g then
      requireWritable g.isWritable
      return (.node { node with pending := rest }, choices, j.goalEvent "GOAL_SATISFIED" g depth)
    else refine ctx node (.goal g) depth rest choices j
  | .work (.item (.task t)) depth => refine ctx node (.task t) depth rest choices j

structure Search where
  node : Option Node
  choices : List ChoicePoint
  lastFailure : Option Reason
  journal : Journal

inductive Verdict
  | found (n : Node)
  | failed (f : Failure)

inductive Progress
  | more (s : Search)
  | done (v : Verdict) (j : Journal)

namespace Search

def start (root : Node) (j : Journal) : Search :=
  { node := some root, choices := [], lastFailure := none, journal := j }

/-- Goes back to the newest choice point. A failure of the last branch stays on record. -/
def stepBack (ctx : Setting) (s : Search) : Except Fault Progress :=
  match s.choices with
  | [] =>
    .ok (.done (.failed {
      reason := {
        kind := .searchExhausted
        message := "No choice point left to backtrack to"
        item := none }
      causes := s.lastFailure.toList }) s.journal)
  | p :: below => do
    match ← resume ctx p below s.journal.countStep with
    | (.node n, choices, j) => return .more { s with node := some n, choices, journal := j }
    | (.failed r, choices, j) =>
      return .more { node := none, choices, lastFailure := s.lastFailure.or (some r), journal := j }
    | (.fatal r, _, j) => return .done (.failed { reason := r, causes := [] }) j

def stepForward (ctx : Setting) (s : Search) (n : Node) : Except Fault Progress :=
  match n.pending with
  | [] => .ok (.done (.found n) s.journal)
  | front :: rest => do
    match ← advance ctx n front rest s.choices (s.journal.countStep.reachDepth front.depth) with
    | (.node n, choices, j) => return .more { s with node := some n, choices, journal := j }
    | (.failed r, choices, j) =>
      return .more {
        node := none
        choices
        lastFailure := some r
        journal := j.backtrack ctx.config.budgets.maxBacktracks r front }
    | (.fatal r, _, j) => return .done (.failed { reason := r, causes := [] }) j

def step (ctx : Setting) (s : Search) : Except Fault Progress :=
  match s.node with
  | none => s.stepBack ctx
  | some n => s.stepForward ctx n

def giveUp (clock : Clock) (status : String) (s : Search) : Verdict × Journal :=
  let j := s.journal.log "BUDGET_EXCEEDED"
    [("reason", .str status), ("steps", .int s.journal.stats.steps),
      ("elapsed_ms", .int (clock.report s.journal.stats)),
      ("choice_points", .int s.choices.length)] none 0 none
  let message := "Budget exceeded (" ++ status ++ ") after " ++ toString j.stats.steps
    ++ " steps, depth " ++ toString j.stats.maxDepth
  (.failed { reason := { kind := .timeout, message, item := none }, causes := [] }, j)

/-- Steps until the search ends, the given number of steps is used up or the time is over. -/
def run (ctx : Setting) : Nat → Search → Except Fault (Verdict × Journal)
  | 0, s => .ok (s.giveUp ctx.clock "STEP_LIMIT")
  | remaining + 1, s =>
    if ctx.config.budgets.time ≤ ctx.clock.check s.journal.stats then
      .ok (s.giveUp ctx.clock "TIME_EXCEEDED")
    else do
      match ← s.step ctx with
      | .more s => run ctx remaining s
      | .done v j => return (v, j)

end Search

def search (ctx : Setting) (root : Node) (j : Journal) : Except Fault (Verdict × Journal) :=
  Search.run ctx (ctx.config.budgets.maxSteps - j.stats.steps).toNat (Search.start root j)

end Chronoplan
