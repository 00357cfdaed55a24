import Chronoplan.Planner.Search
import Chronoplan.Proofs.Faults
import Mathlib.Logic.Hydra

/-!
# Exploration of a node by recursion

The plain reading of depth-first planning, without a stack, a journal or a count of steps. One
turn treats the front of a work list. A branch point explores the refinements of its methods one
after the other, and the first that does not fail decides. Since refinements lie one level deeper
and the depth is limited, the recursion ends; the work left is a multiset of ranks, and every turn
replaces one rank by finitely many smaller ones.
-/

set_option autoImplicit false

namespace Chronoplan

/-- What became of the front of a work list. -/
inductive Turn
  | proceed (n : Node)
  /-- A task or goal has to be refined by one of the methods. -/
  | choose (item : WorkItem) (depth : Nat) (methods : List Candidate)
  | failed (r : Reason)
  | fatal (r : Reason)

/-- How the exploration of a node ends. -/
inductive Ending
  | found (n : Node)
  /-- No branch leads to a plan; the reason is that of the last branch. -/
  | failed (r : Reason)
  | fatal (r : Reason)

namespace Exploration

def noMethods (item : WorkItem) : Reason :=
  { kind := .unknownMethod
    message := "No methods registered for " ++ item.kind.word ++ " " ++ item.name.display
    item := some item }

def noApplicable (item : WorkItem) : Reason :=
  { kind := .methodNotApplicable
    message := "No applicable method for " ++ item.text
    item := some item }

def tooDeep (limit : Int) (item : WorkItem) : Reason :=
  { kind := .depthExceeded
    message := "Depth limit " ++ toString limit ++ " reached at " ++ item.text
    item := some item }

def notAchieved (g : Goal) : Reason :=
  { kind := .goalNotAchieved
    message := "Expansion finished but " ++ g.text ++ " does not hold"
    item := some (.goal g) }

def refused (c : Call) (kind : FailureKind) (reason : Value) : Reason :=
  { kind, message := c.text ++ ": " ++ reason.text, item := some (.command c) }

/-- Gives a branch up at a command, for a reason that has to be written with it. -/
def refuse (c : Call) (kind : FailureKind) (reason : Value) : Except Fault Turn := do
  requireWritable (c.isWritable && reason.isWritable)
  return .failed (refused c kind reason)

/-- What the outcome of a command makes of a node. -/
def settle (node : Node) (c : Call) (outcome : Outcome) : Except Fault Turn :=
  if outcome.declined then refuse c .commandPrecondition (.str defaultReason)
  else
    match outcome with
    | .refused reason => refuse c .commandPrecondition reason
    | .state s => do
      requireWritable c.isWritable
      return .proceed { node with state := s, commands := node.commands ++ [c] }
    | .lasting e => do
      match ← place node c e with
      | .error r => return .failed r
      | .ok (network, a) =>
        return .proceed { node with
          state := e.state
          commands := node.commands ++ [c]
          network
          schedule := node.schedule ++ [a]
          cursor := a.finish }
    | other => .error (.commandResult c.name other.kindName)

/-- Applies a command to a node. -/
def perform (ctx : Setting) (node : Node) (c : Call) : Except Fault Turn := do
  match ← Domain.registered? c.name ctx.domain.commands with
  | none =>
    requireWritable c.name.isWritable
    let message := "No command registered for " ++ c.name.display
    return .fatal { kind := .unknownMethod, message, item := some (.command c) }
  | some f =>
    if ← ctx.blacklist.contains c then
      return ← refuse c .blacklisted (.str "command failed during execution")
    settle node c (← f.run node.state c.args)

/-- The methods for a task or a goal that does not hold, if it may be refined. -/
def branch (ctx : Setting) (item : WorkItem) (depth : Nat) : Except Fault Turn := do
  match (← ctx.domain.candidates item).getD [] with
  | [] =>
    requireWritable item.name.isWritable
    return .fatal (noMethods item)
  | methods =>
    if ctx.config.budgets.maxDepth ≤ depth then
      requireWritable ((Value.int ctx.config.budgets.maxDepth).isWritable && item.isWritable)
      return .failed (tooDeep ctx.config.budgets.maxDepth item)
    else return .choose item depth methods

/-- Goes on with a node whose goal holds already, and otherwise as told. -/
def unlessAchieved (ctx : Setting) (node : Node) (g : Goal) (other : Except Fault Turn) :
    Except Fault Turn := do
  if ← ctx.domain.achieved node.state g then
    requireWritable g.isWritable
    return .proceed node
  else other

/-- Treats what stood in front of a node's work list. -/
def turn (ctx : Setting) (node : Node) : Pending → Except Fault Turn
  | .verify g _ => unlessAchieved ctx node g do
    requireWritable g.isWritable
    return .failed (notAchieved g)
  | .work (.other v) _ => do
    requireWritable v.isWritable
    return .fatal {
      kind := .unknownMethod, message := "Not a work item: " ++ v.display, item := none }
  | .work (.item (.command c)) _ => perform ctx node c
  | .work (.item (.goal g)) depth => unlessAchieved ctx node g (branch ctx (.goal g) depth)
  | .work (.item (.task t)) depth => branch ctx (.task t) depth

/-- The mark behind the refinement of a goal that is to be verified. -/
def marks (ctx : Setting) (depth : Nat) : WorkItem → List Pending
  | .goal g => if ctx.config.verifyGoals then [.verify g depth] else []
  | .task _ => []
  | .command _ => []

/-- What a refinement asks for: its items, one level deeper, and then the mark. -/
def expanded (ctx : Setting) (item : WorkItem) (expansion : List Entry) (depth : Nat) :
    List Pending :=
  (expansion.map fun e => .work e (depth + 1)) ++ marks ctx depth item

/-- A node with a refinement of an item in front of its work list. -/
def refined (ctx : Setting) (node : Node) (item : WorkItem) (depth : Nat)
    (expansion : List Entry) : Node :=
  { node with pending := expanded ctx item expansion depth ++ node.pending }

end Exploration

/-- The refinement of an item that a method offers; none when it declines. Either is told of. -/
def Candidate.refinement (m : Candidate) (item : WorkItem) (s : State) :
    Except Fault (Option (List Entry)) := do
  let outcome ← m.run s
  if outcome.declined then
    requireWritable item.isWritable
    return none
  match outcome.expansion? with
  | none => throw (.methodResult m.name outcome.kindName)
  | some expansion =>
    requireWritable (item.isWritable && expansion.all Entry.isWritable)
    return some expansion

namespace Exploration

/-- Tries something else after a failure. -/
def retry (e : Except Fault Ending) (again : Reason → Except Fault Ending) :
    Except Fault Ending := do
  match ← e with
  | .failed r => again r
  | ending => return ending

/-- Solves the refinements of methods in their order until one does not fail. -/
def firstEnding (item : WorkItem) (s : State) (solve : List Entry → Except Fault Ending)
    (last : Reason) : List Candidate → Except Fault Ending
  | [] => .ok (.failed last)
  | m :: rest => do
    match ← m.refinement item s with
    | none => firstEnding item s solve last rest
    | some expansion => retry (solve expansion) fun r => firstEnding item s solve r rest

/-- Solves the refinement of one method; there may be no such method, or none that applies. -/
def endingOf (item : WorkItem) (s : State) (solve : List Entry → Except Fault Ending)
    (last : Reason) : Option Candidate → Except Fault Ending
  | none => .ok (.failed last)
  | some m => do
    match ← m.refinement item s with
    | none => return .failed last
    | some expansion => solve expansion

/-! The ranks of pending work. An item may be refined again as often as levels are left below it;
a mark for verification asks for nothing more. -/

def rank (limit : Int) : Pending → ℕ
  | .work _ depth => (limit - depth).toNat + 1
  | .verify _ _ => 0

def ranks (limit : Int) (node : Node) : Multiset ℕ :=
  (node.pending.map (rank limit) : List ℕ)

/-- Less work: one pending element is replaced by elements of smaller rank. -/
def Less (limit : Int) : Node → Node → Prop :=
  InvImage (Relation.CutExpand (· < ·)) (ranks limit)

theorem less_wellFounded (limit : Int) : WellFounded (Less limit) :=
  InvImage.wf _ (WellFounded.cutExpand Nat.lt_wfRel.wf)

theorem less_of_pending (limit : Int) (node n : Node) (front : Pending) (rest new : List Pending)
    (hp : node.pending = front :: rest) (hn : n.pending = new ++ rest)
    (h : ∀ p ∈ new, rank limit p < rank limit front) : Less limit n node := by
  refine ⟨(new.map (rank limit) : List ℕ), rank limit front, ?_, ?_⟩
  · intro a ha
    obtain ⟨p, hpn, rfl⟩ := List.mem_map.mp (Multiset.mem_coe.mp ha)
    exact h p hpn
  · simp only [ranks, hp, hn, List.map_append, List.map_cons]
    rw [← Multiset.coe_add, ← Multiset.cons_coe, ← Multiset.singleton_add]
    rw [add_comm, ← add_assoc, add_right_comm]

theorem refuse_eq_ok (c : Call) (kind : FailureKind) (reason : Value) (t : Turn)
    (h : refuse c kind reason = .ok t) : t = .failed (refused c kind reason) := by
  obtain ⟨-, h⟩ := (requireWritable_bind_iff _ _ _).mp h
  exact (Except.ok.inj h).symm

/-- A command leads on by a state that it answers with, or by a lasting effect that finds its
place. -/
theorem settle_proceed_iff (node n : Node) (c : Call) (outcome : Outcome) :
    settle node c outcome = .ok (.proceed n) ↔
      (∃ s, outcome = .state s ∧ c.isWritable = true ∧
        n = { node with state := s, commands := node.commands ++ [c] }) ∨
      ∃ e network a, outcome = .lasting e ∧ place node c e = .ok (.ok (network, a)) ∧
        n = { node with
          state := e.state
          commands := node.commands ++ [c]
          network
          schedule := node.schedule ++ [a]
          cursor := a.finish } := by
  constructor
  · intro h
    unfold settle at h
    split at h
    · cases refuse_eq_ok _ _ _ _ h
    · cases outcome with
      | refused reason => cases refuse_eq_ok _ _ _ _ h
      | state s =>
        obtain ⟨writable, h⟩ := (requireWritable_bind_iff _ _ _).mp h
        exact .inl ⟨s, rfl, writable, by simpa using h.symm⟩
      | lasting e =>
        obtain ⟨placed, hplaced, h⟩ := (bind_eq_ok_iff _ _ _).mp h
        cases placed with
        | error r => cases h
        | ok p => exact .inr ⟨e, p.1, p.2, rfl, hplaced, by simpa using h.symm⟩
      | _ => cases h
  · rintro (⟨s, rfl, writable, rfl⟩ | ⟨e, network, a, rfl, hplaced, rfl⟩)
    · simp [settle, Outcome.declined, writable]
    · simp [settle, Outcome.declined, hplaced]

theorem perform_proceed_iff (ctx : Setting) (node n : Node) (c : Call) :
    perform ctx node c = .ok (.proceed n) ↔
      ∃ f outcome, Domain.registered? c.name ctx.domain.commands = .ok (some f) ∧
        ctx.blacklist.contains c = .ok false ∧ f.run node.state c.args = .ok outcome ∧
        settle node c outcome = .ok (.proceed n) := by
  constructor
  · intro h
    obtain ⟨found, hfound, h⟩ := (bind_eq_ok_iff _ _ _).mp h
    cases found with
    | none =>
      obtain ⟨-, h⟩ := (requireWritable_bind_iff _ _ _).mp h
      cases h
    | some f =>
      obtain ⟨listed, hlisted, h⟩ := (bind_eq_ok_iff _ _ _).mp h
      cases listed with
      | true => cases refuse_eq_ok _ _ _ _ h
      | false =>
        obtain ⟨outcome, hrun, h⟩ := (bind_eq_ok_iff _ _ _).mp h
        exact ⟨f, outcome, hfound, hlisted, hrun, h⟩
  · rintro ⟨f, outcome, hfound, hlisted, hrun, h⟩
    simp [perform, hfound, hlisted, hrun, h]

theorem perform_pending (ctx : Setting) (node n : Node) (c : Call)
    (h : perform ctx node c = .ok (.proceed n)) : n.pending = node.pending := by
  obtain ⟨f, outcome, -, -, -, h⟩ := (perform_proceed_iff ctx node n c).mp h
  obtain ⟨s, -, -, rfl⟩ | ⟨e, network, a, -, -, rfl⟩ := (settle_proceed_iff node n c outcome).mp h
  · rfl
  · rfl

theorem settle_cases (node : Node) (c : Call) (outcome : Outcome) (t : Turn)
    (h : settle node c outcome = .ok t) : (∃ n, t = .proceed n) ∨ ∃ r, t = .failed r := by
  unfold settle at h
  split at h
  · exact .inr ⟨_, refuse_eq_ok _ _ _ _ h⟩
  · cases outcome with
    | refused reason => exact .inr ⟨_, refuse_eq_ok _ _ _ _ h⟩
    | state s =>
      obtain ⟨-, h⟩ := (requireWritable_bind_iff _ _ _).mp h
      exact .inl ⟨_, (Except.ok.inj h).symm⟩
    | lasting e =>
      obtain ⟨placed, -, h⟩ := (bind_eq_ok_iff _ _ _).mp h
      cases placed with
      | error r => exact .inr ⟨_, (Except.ok.inj h).symm⟩
      | ok p => exact .inl ⟨_, (Except.ok.inj h).symm⟩
    | _ => cases h

/-- A command leads on, fails or is unknown. -/
theorem perform_cases (ctx : Setting) (node : Node) (c : Call) (t : Turn)
    (h : perform ctx node c = .ok t) :
    (∃ n, t = .proceed n) ∨ (∃ r, t = .failed r) ∨ ∃ r, t = .fatal r ∧ r.kind = .unknownMethod := by
  obtain ⟨found, -, h⟩ := (bind_eq_ok_iff _ _ _).mp h
  cases found with
  | none =>
    obtain ⟨-, h⟩ := (requireWritable_bind_iff _ _ _).mp h
    exact .inr (.inr ⟨_, (Except.ok.inj h).symm, rfl⟩)
  | some f =>
    obtain ⟨listed, -, h⟩ := (bind_eq_ok_iff _ _ _).mp h
    cases listed with
    | true => exact .inr (.inl ⟨_, refuse_eq_ok _ _ _ _ h⟩)
    | false =>
      obtain ⟨outcome, -, h⟩ := (bind_eq_ok_iff _ _ _).mp h
      exact (settle_cases node c outcome t h).imp_right .inl

/-- An item offers its methods while levels are left below it. -/
theorem branch_cases (ctx : Setting) (item : WorkItem) (depth : Nat) (t : Turn)
    (h : branch ctx item depth = .ok t) :
    (∃ methods, t = .choose item depth methods ∧ depth < ctx.config.budgets.maxDepth) ∨
      (∃ r, t = .failed r) ∨ ∃ r, t = .fatal r ∧ r.kind = .unknownMethod := by
  obtain ⟨found, -, h⟩ := (bind_eq_ok_iff _ _ _).mp h
  split at h
  · obtain ⟨-, h⟩ := (requireWritable_bind_iff _ _ _).mp h
    exact .inr (.inr ⟨_, (Except.ok.inj h).symm, rfl⟩)
  · split at h
    · obtain ⟨-, h⟩ := (requireWritable_bind_iff _ _ _).mp h
      exact .inr (.inl ⟨_, (Except.ok.inj h).symm⟩)
    · exact .inl ⟨_, (Except.ok.inj h).symm, by omega⟩

theorem unlessAchieved_cases (ctx : Setting) (node : Node) (g : Goal)
    (other : Except Fault Turn) (t : Turn) (h : unlessAchieved ctx node g other = .ok t) :
    t = .proceed node ∨ other = .ok t := by
  obtain ⟨holds, -, h⟩ := (bind_eq_ok_iff _ _ _).mp h
  cases holds with
  | true =>
    obtain ⟨-, h⟩ := (requireWritable_bind_iff _ _ _).mp h
    exact .inl (Except.ok.inj h).symm
  | false => exact .inr h

/-- A turn drops a goal that holds, applies a command, or offers the methods of an item. -/
theorem turn_cases (ctx : Setting) (node : Node) (front : Pending) (t : Turn)
    (h : turn ctx node front = .ok t) :
    t = .proceed node ∨
    (∃ c depth, front = .work (.item (.command c)) depth ∧ perform ctx node c = .ok t) ∨
    (∃ item depth methods, front = .work (.item item) depth ∧ t = .choose item depth methods ∧
      depth < ctx.config.budgets.maxDepth) ∨
    (∃ r, t = .failed r) ∨ ∃ r, t = .fatal r ∧ r.kind = .unknownMethod := by
  match front with
  | .verify g _ =>
    rcases unlessAchieved_cases ctx node g _ t h with h | h
    · exact .inl h
    · obtain ⟨-, h⟩ := (requireWritable_bind_iff _ _ _).mp h
      exact .inr (.inr (.inr (.inl ⟨_, (Except.ok.inj h).symm⟩)))
  | .work (.other v) _ =>
    obtain ⟨-, h⟩ := (requireWritable_bind_iff _ _ _).mp h
    exact .inr (.inr (.inr (.inr ⟨_, (Except.ok.inj h).symm, rfl⟩)))
  | .work (.item (.command c)) depth => exact .inr (.inl ⟨c, depth, rfl, h⟩)
  | .work (.item (.goal g)) depth =>
    rcases unlessAchieved_cases ctx node g _ t h with h | h
    · exact .inl h
    · rcases branch_cases ctx (.goal g) depth t h with ⟨methods, ht, hd⟩ | h
      · exact .inr (.inr (.inl ⟨.goal g, depth, methods, rfl, ht, hd⟩))
      · exact .inr (.inr (.inr h))
  | .work (.item (.task a)) depth =>
    rcases branch_cases ctx (.task a) depth t h with ⟨methods, ht, hd⟩ | h
    · exact .inr (.inr (.inl ⟨.task a, depth, methods, rfl, ht, hd⟩))
    · exact .inr (.inr (.inr h))

theorem turn_proceed (ctx : Setting) (node n : Node) (front : Pending)
    (h : turn ctx node front = .ok (.proceed n)) :
    n = node ∨ ∃ c depth, front = .work (.item (.command c)) depth ∧
      perform ctx node c = .ok (.proceed n) := by
  obtain ht | hc | ⟨_, _, _, -, ht, -⟩ | ⟨_, ht⟩ | ⟨_, ht, -⟩ := turn_cases ctx node front _ h
  · exact .inl (Turn.proceed.inj ht)
  · exact .inr hc
  · cases ht
  · cases ht
  · cases ht

theorem turn_pending (ctx : Setting) (node n : Node) (front : Pending)
    (h : turn ctx node front = .ok (.proceed n)) : n.pending = node.pending := by
  obtain rfl | ⟨c, -, -, hc⟩ := turn_proceed ctx node n front h
  · rfl
  · exact perform_pending ctx node n c hc

theorem turn_choose (ctx : Setting) (node : Node) (front : Pending) (item : WorkItem)
    (depth : Nat) (methods : List Candidate)
    (h : turn ctx node front = .ok (.choose item depth methods)) :
    front = .work (.item item) depth ∧ depth < ctx.config.budgets.maxDepth := by
  obtain ht | ⟨c, _, -, hc⟩ | ⟨_, _, _, hfront, ht, hd⟩ | ⟨_, ht⟩ | ⟨_, ht, -⟩ :=
    turn_cases ctx node front _ h
  · cases ht
  · obtain ⟨_, ht⟩ | ⟨_, ht⟩ | ⟨_, ht, -⟩ := perform_cases ctx node c _ hc <;> cases ht
  · cases ht
    exact ⟨hfront, hd⟩
  · cases ht
  · cases ht

theorem turn_fatal (ctx : Setting) (node : Node) (front : Pending) (r : Reason)
    (h : turn ctx node front = .ok (.fatal r)) : r.kind = .unknownMethod := by
  obtain ht | ⟨c, _, -, hc⟩ | ⟨_, _, _, -, ht, -⟩ | ⟨_, ht⟩ | ⟨_, ht, hk⟩ :=
    turn_cases ctx node front _ h
  · cases ht
  · obtain ⟨_, ht⟩ | ⟨_, ht⟩ | ⟨_, ht, hk⟩ := perform_cases ctx node c _ hc <;> cases ht
    exact hk
  · cases ht
  · cases ht
  · cases ht
    exact hk

theorem marks_cases (ctx : Setting) (depth : Nat) (item : WorkItem) :
    marks ctx depth item = [] ∨ ∃ g, item = .goal g ∧ marks ctx depth item = [.verify g depth] := by
  cases item with
  | goal g =>
    simp only [marks]
    split
    · exact .inr ⟨g, rfl, rfl⟩
    · exact .inl rfl
  | task t => exact .inl rfl
  | command c => exact .inl rfl

/-- A refinement asks for its items, one level deeper, and for marks of its own level. -/
theorem mem_expanded (ctx : Setting) (item : WorkItem) (expansion : List Entry) (depth : Nat)
    (p : Pending) (h : p ∈ expanded ctx item expansion depth) :
    (∃ e ∈ expansion, p = .work e (depth + 1)) ∨ ∃ g, p = .verify g depth := by
  rcases List.mem_append.mp h with h | h
  · obtain ⟨e, he, rfl⟩ := List.mem_map.mp h
    exact .inl ⟨e, he, rfl⟩
  · obtain hnone | ⟨g, -, hmark⟩ := marks_cases ctx depth item
    · rw [hnone] at h
      cases h
    · rw [hmark] at h
      exact .inr ⟨g, List.mem_singleton.mp h⟩

theorem expanded_rank (ctx : Setting) (item : WorkItem) (expansion : List Entry) (depth : Nat)
    (h : depth < ctx.config.budgets.maxDepth) :
    ∀ p ∈ expanded ctx item expansion depth, rank ctx.config.budgets.maxDepth p <
      rank ctx.config.budgets.maxDepth (.work (.item item) depth) := by
  intro p hp
  obtain ⟨e, -, rfl⟩ | ⟨g, rfl⟩ := mem_expanded ctx item expansion depth p hp
  · simp only [rank]
    omega
  · exact Nat.succ_pos _

theorem proceed_less (ctx : Setting) (node n : Node) (front : Pending) (rest : List Pending)
    (hp : node.pending = front :: rest)
    (h : turn ctx { node with pending := rest } front = .ok (.proceed n)) :
    Less ctx.config.budgets.maxDepth n node :=
  less_of_pending _ node n front rest [] hp (turn_pending ctx _ n front h) (by simp)

theorem refined_less (ctx : Setting) (node : Node) (front : Pending) (rest : List Pending)
    (item : WorkItem) (depth : Nat) (methods : List Candidate) (expansion : List Entry)
    (hp : node.pending = front :: rest)
    (h : turn ctx { node with pending := rest } front = .ok (.choose item depth methods)) :
    Less ctx.config.budgets.maxDepth
      (refined ctx { node with pending := rest } item depth expansion) node := by
  obtain ⟨rfl, hd⟩ := turn_choose ctx _ front item depth methods h
  exact less_of_pending _ node _ _ rest _ hp rfl (expanded_rank ctx item expansion depth hd)

end Exploration

/-- Nodes by the work that is left in them. -/
structure Workload where
  limit : Int
  node : Node

instance : WellFoundedRelation Workload where
  rel a b := a.limit = b.limit ∧ Exploration.Less b.limit a.node b.node
  wf := by
    refine ⟨fun a => ?_⟩
    obtain ⟨limit, node⟩ := a
    induction node using (Exploration.less_wellFounded limit).induction with
    | _ node ih =>
      refine ⟨_, ?_⟩
      rintro ⟨_, n⟩ ⟨rfl, hn⟩
      exact ih n hn

open Exploration in
/-- Explores a node depth first: one turn after the other, and at a branch point one method after
the other until an ending is found that is no failure. -/
def explore (ctx : Setting) (node : Node) : Except Fault Ending :=
  match _hp : node.pending with
  | [] => .ok (.found node)
  | front :: rest =>
    match _ht : turn ctx { node with pending := rest } front with
    | .error e => .error e
    | .ok (.failed r) => .ok (.failed r)
    | .ok (.fatal r) => .ok (.fatal r)
    | .ok (.proceed n) => explore ctx n
    | .ok (.choose item depth methods) =>
      firstEnding item node.state
        (fun expansion => explore ctx
          (refined ctx { node with pending := rest } item depth expansion))
        (noApplicable item) methods
termination_by Workload.mk ctx.config.budgets.maxDepth node
decreasing_by
  · exact ⟨trivial, proceed_less ctx node n front rest _hp _ht⟩
  · exact ⟨trivial, refined_less ctx node front rest item depth methods expansion _hp _ht⟩

open Exploration in
/-- Follows one branch: at the branch points it meets, one after the other, `choice` tells which
method to take, counted from zero in the order of registration. -/
def follow (ctx : Setting) (choice : ℕ → ℕ) (node : Node) : Except Fault Ending :=
  match _hp : node.pending with
  | [] => .ok (.found node)
  | front :: rest =>
    match _ht : turn ctx { node with pending := rest } front with
    | .error e => .error e
    | .ok (.failed r) => .ok (.failed r)
    | .ok (.fatal r) => .ok (.fatal r)
    | .ok (.proceed n) => follow ctx choice n
    | .ok (.choose item depth methods) =>
      endingOf item node.state
        (fun expansion => follow ctx (fun i => choice (i + 1))
          (refined ctx { node with pending := rest } item depth expansion))
        (noApplicable item) methods[choice 0]?
termination_by Workload.mk ctx.config.budgets.maxDepth node
decreasing_by
  · exact ⟨trivial, proceed_less ctx node n front rest _hp _ht⟩
  · exact ⟨trivial, refined_less ctx node front rest item depth methods expansion _hp _ht⟩

end Chronoplan
