import Chronoplan.Planner.Execution
import Chronoplan.Proofs.Planner.Backtracking

/-!
# Replay of a plan

A plan is replayed by applying its commands one after the other to what a branch owns: a state, a
network, a schedule and the end of the latest action. Whatever the search tried and gave up, the
commands of the plan it finds lead from the start to exactly the state, the schedule and the
network of the plan.
-/

set_option autoImplicit false

namespace Chronoplan
open Exploration

/-- Applies a command; none when it is unknown, refuses or finds no place in time. A command that
is applied leads to the state of its answer and is noted. If it lasts, it is booked, and the next
one that lasts comes after its end. -/
def enact (d : Domain) (node : Node) (c : Call) : Except Fault (Option Node) := do
  match ← Domain.registered? c.name d.commands with
  | none => return none
  | some f =>
    match ← f.run node.state c.args with
    | .state s => return some { node with state := s, commands := node.commands ++ [c] }
    | .lasting e =>
      match ← place node c e with
      | .error _ => return none
      | .ok (network, a) =>
        return some { node with
          state := e.state
          commands := node.commands ++ [c]
          network
          schedule := node.schedule ++ [a]
          cursor := a.finish }
    | _ => return none

def replay (d : Domain) : Node → List Call → Except Fault (Option Node)
  | node, [] => .ok (some node)
  | node, c :: rest => do
    match ← enact d node c with
    | none => return none
    | some n => replay d n rest

/-- What a branch owns, without the work that is left. -/
def Node.owned (node : Node) : Node := { node with pending := [] }

theorem perform_enact (ctx : Setting) (node n : Node) (c : Call)
    (h : perform ctx node c = .ok (.proceed n)) :
    enact ctx.domain node.owned c = .ok (some n.owned) ∧ n.commands = node.commands ++ [c] := by
  obtain ⟨f, outcome, hfound, -, hrun, h⟩ := (perform_proceed_iff ctx node n c).mp h
  obtain ⟨s, rfl, -, rfl⟩ | ⟨e, network, a, rfl, hplaced, rfl⟩ :=
    (settle_proceed_iff node n c outcome).mp h
  · constructor
    · simp only [enact, Node.owned, hfound, hrun, ok_bind]
      rfl
    · rfl
  · have hplace : place node.owned c e = .ok (.ok (network, a)) := hplaced
    simp only [Node.owned] at hplace
    constructor
    · simp only [enact, Node.owned, hfound, hrun, hplace, ok_bind]
      rfl
    · rfl

theorem replay_append_iff (d : Domain) (node n : Node) (front rest : List Call) :
    replay d node (front ++ rest) = .ok (some n) ↔
      ∃ m, replay d node front = .ok (some m) ∧ replay d m rest = .ok (some n) := by
  induction front generalizing node with
  | nil => simp [replay]
  | cons c front ih =>
    simp only [List.cons_append, replay, bind_eq_ok_iff]
    constructor
    · rintro ⟨enacted, henact, h⟩
      cases enacted with
      | none => cases h
      | some next =>
        obtain ⟨m, hm, hn⟩ := (ih next).mp h
        exact ⟨m, ⟨some next, henact, hm⟩, hn⟩
    · rintro ⟨m, ⟨enacted, henact, hm⟩, hn⟩
      cases enacted with
      | none => cases hm
      | some next => exact ⟨some next, henact, (ih next).mpr ⟨m, hm, hn⟩⟩

/-- What holds at the start of a replay and is kept by each of its commands holds at its end. -/
theorem replay_induction (P : Node → Prop) (d : Domain) (root n : Node) (commands : List Call)
    (h : replay d root commands = .ok (some n)) (start : P root)
    (step : ∀ front c rest node next, commands = front ++ c :: rest →
      replay d root front = .ok (some node) → enact d node c = .ok (some next) → P node → P next) :
    P n := by
  induction commands using List.reverseRecOn generalizing n with
  | nil =>
    cases h
    exact start
  | append_singleton commands c ih =>
    obtain ⟨node, hnode, h⟩ := (replay_append_iff d root n commands [c]).mp h
    obtain ⟨enacted, henact, h⟩ := (bind_eq_ok_iff _ _ _).mp h
    cases enacted with
    | none => cases h
    | some next =>
      cases h
      refine step commands c [] node n rfl hnode henact (ih node hnode ?_)
      intro front c' rest node' next hcommands
      exact step front c' (rest ++ [c]) node' next (by rw [hcommands]; simp)

/-- One node is what another becomes by further commands, apart from the work that is left. -/
def Extends (d : Domain) (node n : Node) : Prop :=
  ∃ added, n.commands = node.commands ++ added ∧ replay d node.owned added = .ok (some n.owned)

theorem Extends.refl (d : Domain) (node : Node) : Extends d node node :=
  ⟨[], (List.append_nil _).symm, rfl⟩

theorem Extends.trans {d : Domain} {node m n : Node} (h : Extends d node m) (h' : Extends d m n) :
    Extends d node n := by
  obtain ⟨first, hm, hfirst⟩ := h
  obtain ⟨second, hn, hsecond⟩ := h'
  refine ⟨first ++ second, ?_, ?_⟩
  · rw [hn, hm, List.append_assoc]
  · exact (replay_append_iff d _ _ first second).mpr ⟨m.owned, hfirst, hsecond⟩

theorem turn_extends (ctx : Setting) (node n : Node) (front : Pending)
    (h : turn ctx node front = .ok (.proceed n)) : Extends ctx.domain node n := by
  obtain rfl | ⟨c, -, -, hc⟩ := turn_proceed ctx node n front h
  · exact .refl _ _
  · obtain ⟨henact, hcommands⟩ := perform_enact ctx node n c hc
    refine ⟨[c], hcommands, ?_⟩
    simp only [replay, henact, ok_bind]

/-- A branch to a plan works a list off from the front: it passes a node at which only the rest
of the list is left. The induction is along the branch; a refinement makes the front longer. -/
theorem arrives_past (ctx : Setting) (node n : Node) (h : Arrives ctx node (.found n))
    (front rest : List Pending) (hp : node.pending = front ++ rest) :
    ∃ m, m.pending = rest ∧ Extends ctx.domain node m ∧ Arrives ctx m (.found n) := by
  generalize he : Ending.found n = ending at h
  induction h generalizing front with
  | found node hnil =>
    cases he
    rw [hnil] at hp
    obtain ⟨-, rfl⟩ := List.append_eq_nil_iff.mp hp.symm
    exact ⟨n, hnil, .refl _ _, .found n hnil⟩
  | failed => cases he
  | fatal => cases he
  | proceed node n' first later ending hfirst ht hn ih =>
    cases front with
    | nil =>
      cases he
      exact ⟨node, hp, .refl _ _, .proceed node n' first later _ hfirst ht hn⟩
    | cons p front =>
      rw [hfirst] at hp
      cases hp
      have hpending : n'.pending = front ++ rest := turn_pending ctx _ n' _ ht
      obtain ⟨m, hm, hextends, harrives⟩ := ih front hpending he
      exact ⟨m, hm, (turn_extends ctx _ n' _ ht).trans hextends, harrives⟩
  | refined node first later item depth methods m expansion ending hfirst ht hmem hr hn ih =>
    cases front with
    | nil =>
      cases he
      exact ⟨node, hp, .refl _ _,
        .refined node first later item depth methods m expansion _ hfirst ht hmem hr hn⟩
    | cons p front =>
      rw [hfirst] at hp
      cases hp
      obtain ⟨m', hm, hextends, harrives⟩ := ih (expanded ctx item expansion depth ++ front)
        (List.append_assoc _ _ _).symm he
      exact ⟨m', hm, hextends, harrives⟩

theorem arrives_nil (ctx : Setting) (node n : Node) (h : Arrives ctx node (.found n))
    (hp : node.pending = []) : n = node := by
  cases h with
  | found => rfl
  | proceed _ _ _ _ _ hfirst => rw [hfirst] at hp; cases hp
  | refined _ _ _ _ _ _ _ _ _ hfirst => rw [hfirst] at hp; cases hp

/-- The commands that a branch adds to a node replay to the node at its end. -/
theorem arrives_extends (ctx : Setting) (node n : Node) (h : Arrives ctx node (.found n)) :
    Extends ctx.domain node n := by
  obtain ⟨m, hm, hextends, harrives⟩ := arrives_past ctx node n h node.pending []
    (List.append_nil _).symm
  rw [arrives_nil ctx m n harrives hm]
  exact hextends

/-- A dry run that has a plan is a search that found it. -/
theorem plan_found (clock : Clock) (d : Domain) (config : PlannerConfig) (s : State)
    (entries : List Entry) (r : PlanResult) (p : Plan) (hdry : config.execute = false)
    (h : plan clock d config s entries = .ok r) (hp : r.plan = .ok p) :
    ∃ n j, search { domain := d, config, blacklist := [], clock }
      ((Live.start s config.network).root entries) (Journal.new config.includeTrace) =
        .ok (.found n, j) ∧ n.toPlan = p := by
  obtain ⟨_, -, h⟩ := (bind_eq_ok_iff _ _ _).mp h
  simp only [hdry] at h
  obtain ⟨⟨found, j⟩, hrun, h⟩ := (bind_eq_ok_iff _ _ _).mp h
  cases h
  simp only at hp
  subst hp
  obtain ⟨⟨v, j'⟩, hs, h⟩ := (bind_eq_ok_iff _ _ _).mp hrun
  cases v with
  | failed f => cases h
  | found n =>
    cases h
    exact ⟨n, j, hs, rfl⟩

/-- The plan of a run, if there is one. -/
def planOf (run : Except Fault PlanResult) : Option Plan :=
  run.toOption.bind fun r => r.plan.toOption

theorem planOf_eq_some_iff (run : Except Fault PlanResult) (p : Plan) :
    planOf run = some p ↔ ∃ r, run = .ok r ∧ r.plan = .ok p := by
  cases run with
  | error e => simp [planOf, Except.toOption]
  | ok r => cases hp : r.plan <;> simp [planOf, Except.toOption, hp]

/-- The plan of a dry run replays from the initial state: every command is accepted where it
stands, and the end is the final state, the schedule and the network of the plan. -/
theorem plan_replays (clock : Clock) (d : Domain) (config : PlannerConfig) (s : State)
    (entries : List Entry) (r : PlanResult) (p : Plan) (hdry : config.execute = false)
    (h : plan clock d config s entries = .ok r) (hp : r.plan = .ok p) :
    ∃ n, replay d ((Live.start s config.network).root []) p.commands = .ok (some n) ∧
      n.toPlan = p := by
  obtain ⟨n, j, hs, rfl⟩ := plan_found clock d config s entries r p hdry h hp
  obtain ⟨choice, hc⟩ := search_found _ _ n _ j hs
  obtain ⟨added, hcommands, hreplay⟩ := arrives_extends _ _ n (follow_arrives _ choice _ _ hc)
  have hcommands : n.toPlan.commands = added := hcommands
  refine ⟨n.owned, ?_, rfl⟩
  rw [hcommands]
  exact hreplay

namespace Journey

theorem replays : ∃ r p n, PlannerConfig.standard.execute = false ∧
    plan Clock.stopped domain PlannerConfig.standard State.empty entries = .ok r ∧
    r.plan = .ok p ∧
    replay domain ((Live.start State.empty Network.standard).root []) p.commands = .ok (some n) ∧
    n.toPlan = p ∧ p.schedule.length = 1 := by
  obtain ⟨r, p, h, hp, hlength⟩ : ∃ r p,
      plan Clock.stopped domain PlannerConfig.standard State.empty entries = .ok r ∧
      r.plan = .ok p ∧ p.schedule.length = 1 := ⟨_, _, rfl, rfl, rfl⟩
  obtain ⟨n, hreplay, hn⟩ := plan_replays Clock.stopped domain PlannerConfig.standard State.empty
    entries r p rfl h hp
  exact ⟨r, p, n, rfl, h, hp, hreplay, hn, hlength⟩

end Journey

end Chronoplan
