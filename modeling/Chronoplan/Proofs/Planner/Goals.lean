import Chronoplan.Proofs.Planner.Replay

/-!
# Goals along a plan

When goals are verified, the refinement of a goal is followed by a mark at which the goal has to
hold. A branch to a plan works its list off from the front, so it passes every mark, and there is
a place in the plan for every item of the work list, in their order, at which the item holds if it
is a goal.
-/

set_option autoImplicit false

namespace Chronoplan
open Exploration

theorem unlessAchieved_proceed (ctx : Setting) (node n : Node) (g : Goal)
    (other : Except Fault Turn) (hother : other ≠ .ok (.proceed n))
    (h : unlessAchieved ctx node g other = .ok (.proceed n)) :
    n = node ∧ ctx.domain.achieved node.state g = .ok true := by
  obtain ⟨holds, hholds, h⟩ := (bind_eq_ok_iff _ _ _).mp h
  cases holds with
  | true =>
    obtain ⟨-, h⟩ := (requireWritable_bind_iff _ _ _).mp h
    cases h
    exact ⟨rfl, hholds⟩
  | false => exact absurd h hother

theorem branch_ne_proceed (ctx : Setting) (item : WorkItem) (depth : Nat) (n : Node) :
    branch ctx item depth ≠ .ok (.proceed n) := by
  intro h
  obtain ⟨_, ht, -⟩ | ⟨_, ht⟩ | ⟨_, ht, -⟩ := branch_cases ctx item depth _ h <;> cases ht

theorem turn_goal_proceed (ctx : Setting) (node n : Node) (g : Goal) (depth : Nat)
    (h : turn ctx node (.work (.item (.goal g)) depth) = .ok (.proceed n)) :
    n = node ∧ ctx.domain.achieved node.state g = .ok true :=
  unlessAchieved_proceed ctx node n g _ (branch_ne_proceed ctx (.goal g) depth n) h

theorem turn_verify_proceed (ctx : Setting) (node n : Node) (g : Goal) (depth : Nat)
    (h : turn ctx node (.verify g depth) = .ok (.proceed n)) :
    n = node ∧ ctx.domain.achieved node.state g = .ok true := by
  refine unlessAchieved_proceed ctx node n g _ ?_ h
  intro hfailed
  obtain ⟨-, hfailed⟩ := (requireWritable_bind_iff _ _ _).mp hfailed
  cases hfailed

theorem expanded_goal (ctx : Setting) (hverify : ctx.config.verifyGoals = true) (g : Goal)
    (expansion : List Entry) (depth : Nat) : expanded ctx (.goal g) expansion depth =
      (expansion.map fun e => Pending.work e (depth + 1)) ++ [.verify g depth] := by
  simp [expanded, marks, hverify]

/-- The mark of a goal lets a branch pass only while the goal holds. -/
theorem arrives_verified (ctx : Setting) (node n : Node) (g : Goal) (depth : Nat)
    (rest : List Pending) (hp : node.pending = .verify g depth :: rest)
    (h : Arrives ctx node (.found n)) :
    ctx.domain.achieved node.state g = .ok true ∧
      Arrives ctx { node with pending := rest } (.found n) := by
  cases h with
  | found _ hnil => rw [hnil] at hp; cases hp
  | proceed _ n' front rest' _ hfirst ht hn =>
    rw [hfirst] at hp
    cases hp
    obtain ⟨rfl, hg⟩ := turn_verify_proceed ctx _ n' g depth ht
    exact ⟨hg, hn⟩
  | refined _ front rest' item depth' methods _ _ _ hfirst ht =>
    rw [hfirst] at hp
    cases hp
    cases (turn_choose ctx _ _ item depth' methods ht).1

/-- Past a goal the branch comes to a node at which the goal holds: at once when it holds already,
and otherwise at the mark behind its refinement, whatever the refinement consists of. -/
theorem arrives_past_goal (ctx : Setting) (hverify : ctx.config.verifyGoals = true)
    (node n : Node) (g : Goal) (depth : Nat) (rest : List Pending)
    (hp : node.pending = .work (.item (.goal g)) depth :: rest) (h : Arrives ctx node (.found n)) :
    ∃ m, m.pending = rest ∧ Extends ctx.domain node m ∧ Arrives ctx m (.found n) ∧
      ctx.domain.achieved m.state g = .ok true := by
  cases h with
  | found _ hnil => rw [hnil] at hp; cases hp
  | proceed _ n' front rest' _ hfirst ht hn =>
    rw [hfirst] at hp
    cases hp
    obtain ⟨rfl, hg⟩ := turn_goal_proceed ctx _ n' g depth ht
    exact ⟨{ node with pending := rest }, rfl, Extends.refl ctx.domain node, hn, hg⟩
  | refined _ front rest' item depth' methods m expansion _ hfirst ht hm hr hn =>
    rw [hfirst] at hp
    cases hp
    obtain ⟨heq, -⟩ := turn_choose ctx _ _ item depth' methods ht
    cases heq
    obtain ⟨marked, hmarked, hextends, harrives⟩ := arrives_past ctx _ n hn
      (expansion.map fun e => Pending.work e (depth + 1)) (.verify g depth :: rest) (by
        rw [refined, expanded_goal ctx hverify, List.append_assoc]
        rfl)
    obtain ⟨hg, harrives⟩ := arrives_verified ctx marked n g depth rest hmarked harrives
    exact ⟨{ marked with pending := rest }, rfl, hextends, harrives, hg⟩

/-- A goal holds in the state that the first commands of a list lead to. -/
def HoldsAfter (d : Domain) (root : Node) (commands : List Call) (count : ℕ) (g : Goal) : Prop :=
  ∃ node, replay d root (commands.take count) = .ok (some node) ∧ d.achieved node.state g = .ok true

/-- The place in a plan at which an item is done with; a goal holds there. -/
def DoneAt (d : Domain) (root : Node) (commands : List Call) (e : Entry) (count : ℕ) : Prop :=
  count ≤ commands.length ∧ ∀ g, e = .item (.goal g) → HoldsAfter d root commands count g

theorem doneAt_of_extends (d : Domain) (root m n : Node) (e : Entry) (hroot : root.commands = [])
    (hm : Extends d root m) (hn : Extends d m n)
    (hg : ∀ g, e = .item (.goal g) → d.achieved m.state g = .ok true) :
    DoneAt d root.owned n.commands e m.commands.length := by
  obtain ⟨before, hbefore, hreplay⟩ := hm
  obtain ⟨after, hafter, -⟩ := hn
  rw [hroot, List.nil_append] at hbefore
  have take : n.commands.take m.commands.length = before := by
    rw [hafter, List.take_left' rfl, hbefore]
  constructor
  · rw [hafter, List.length_append]
    omega
  · intro g he
    refine ⟨m.owned, ?_, hg g he⟩
    rw [take]
    exact hreplay

theorem Extends.length_le {d : Domain} {node n : Node} (h : Extends d node n) :
    node.commands.length ≤ n.commands.length := by
  obtain ⟨added, hadded, -⟩ := h
  rw [hadded, List.length_append]
  omega

/-- The places of the items of a work list on a branch to a plan. The induction is on the items:
past the first one the branch goes on with the others. -/
theorem arrives_places (ctx : Setting) (hverify : ctx.config.verifyGoals = true) (root node n : Node)
    (entries : List Entry) (hroot : root.commands = []) (hnode : Extends ctx.domain root node)
    (hp : node.pending = entries.map fun e => .work e 0) (h : Arrives ctx node (.found n)) :
    ∃ places, List.Forall₂ (DoneAt ctx.domain root.owned n.commands) entries places ∧
      places.Pairwise (· ≤ ·) ∧ (∀ k ∈ places, node.commands.length ≤ k) ∧
      ∀ g, entries.getLast? = some (.item (.goal g)) →
        ctx.domain.achieved n.state g = .ok true := by
  induction entries generalizing node with
  | nil => exact ⟨[], .nil, .nil, by simp, by simp⟩
  | cons e rest ih =>
    obtain ⟨m, hm, hextends, harrives, hg⟩ : ∃ m : Node,
        m.pending = rest.map (fun e => Pending.work e 0) ∧ Extends ctx.domain node m ∧
        Arrives ctx m (.found n) ∧
        ∀ g, e = .item (.goal g) → ctx.domain.achieved m.state g = .ok true := by
      by_cases hgoal : ∃ g, e = .item (.goal g)
      · obtain ⟨g, rfl⟩ := hgoal
        obtain ⟨m, hm, hextends, harrives, hg⟩ :=
          arrives_past_goal ctx hverify node n g 0 (rest.map fun e => .work e 0) hp h
        refine ⟨m, hm, hextends, harrives, ?_⟩
        rintro _ ⟨⟩
        exact hg
      · obtain ⟨m, hm, hextends, harrives⟩ :=
          arrives_past ctx node n h [.work e 0] (rest.map fun e => .work e 0) hp
        exact ⟨m, hm, hextends, harrives, fun g he => absurd ⟨g, he⟩ hgoal⟩
    obtain ⟨places, hdone, hsorted, hlater, hlast⟩ := ih m (hnode.trans hextends) hm harrives
    have hfirst : DoneAt ctx.domain root.owned n.commands e m.commands.length :=
      doneAt_of_extends _ root m n e hroot (hnode.trans hextends)
        (arrives_extends ctx m n harrives) hg
    refine ⟨m.commands.length :: places, .cons hfirst hdone, List.pairwise_cons.mpr
      ⟨hlater, hsorted⟩, ?_, ?_⟩
    · intro k hk
      rcases List.mem_cons.mp hk with rfl | hk
      · exact hextends.length_le
      · exact hextends.length_le.trans (hlater k hk)
    · intro g hgoal
      cases rest with
      | nil =>
        -- nothing is left behind the last item, so the branch ends where the item holds
        obtain rfl : n = m := arrives_nil ctx m n harrives hm
        exact hg g (Option.some.inj hgoal)
      | cons e' rest => exact hlast g (by rwa [List.getLast?_cons_cons] at hgoal)

/-- In the plan of a dry run that verifies goals there is a place for every item, in the order of
the items, such that every goal holds after the commands up to its place; and a goal that comes
last holds in the final state. -/
theorem goals_hold_in_order (clock : Clock) (d : Domain) (config : PlannerConfig) (s : State)
    (entries : List Entry) (r : PlanResult) (p : Plan) (hdry : config.execute = false)
    (hverify : config.verifyGoals = true)
    (h : plan clock d config s entries = .ok r) (hp : r.plan = .ok p) :
    (∃ places,
      List.Forall₂ (DoneAt d ((Live.start s config.network).root []) p.commands) entries places ∧
        places.Pairwise (· ≤ ·)) ∧
      ∀ g, entries.getLast? = some (.item (.goal g)) → d.achieved p.finalState g = .ok true := by
  obtain ⟨n, j, hs, rfl⟩ := plan_found clock d config s entries r p hdry h hp
  obtain ⟨choice, hc⟩ := search_found _ _ n _ j hs
  obtain ⟨places, hdone, hsorted, -, hlast⟩ := arrives_places _ hverify _ _ n entries rfl
    (.refl _ _) rfl (follow_arrives _ choice _ _ hc)
  exact ⟨⟨places, hdone, hsorted⟩, hlast⟩

/-! ## An errand

The first method for posting a letter does nothing, and its mark sends the search on to the
second one. -/

namespace Errand

def mark (name : String) (s : State) : State :=
  s.write { category := defaultCategory, name := .str name, entities := [.str "letter"] }
    (.bool true)

def command (name : String) (serial : Nat) : Callback (List Value) :=
  { name, serial, run := fun s _ => .ok (.state (mark name s)) }

def method (name : String) (serial : Nat) (commands : List String) : Callback (Value × Value) :=
  { name, serial, run := fun _ _ =>
      .ok (.items (commands.map fun c => .item (.command ⟨.str c, []⟩)) false) }

def domain : Domain :=
  { Domain.empty "errand" with
    commands := [("stamped", command "stamped" 0), ("posted", command "posted" 1)]
    unigoals := [
      ("stamped", [method "stamp" 2 ["stamped"]]),
      ("posted", [method "forget" 3 [], method "post" 4 ["posted"]])] }

def goal (name : String) : Goal :=
  .single { predicate := .str name, entity := .str "letter", target := .bool true }

def entries : List Entry := [.item (.goal (goal "stamped")), .item (.goal (goal "posted"))]

theorem both_goals_hold : ∃ r p, PlannerConfig.standard.execute = false ∧
    PlannerConfig.standard.verifyGoals = true ∧
    plan Clock.stopped domain PlannerConfig.standard State.empty entries = .ok r ∧
    r.plan = .ok p ∧
    p.commands.map Call.text = ["stamped()", "posted()"] ∧
    (∃ places, List.Forall₂
      (DoneAt domain ((Live.start State.empty Network.standard).root []) p.commands)
      entries places ∧ places.Pairwise (· ≤ ·)) ∧
    domain.achieved p.finalState (goal "posted") = .ok true := by
  have texts : (planOf (plan Clock.stopped domain PlannerConfig.standard State.empty entries)).map
      (fun p => p.commands.map Call.text) = some ["stamped()", "posted()"] := by
    decide +kernel
  obtain ⟨p, hplan, htexts⟩ := Option.map_eq_some_iff.mp texts
  obtain ⟨r, h, hp⟩ := (planOf_eq_some_iff _ p).mp hplan
  obtain ⟨places, last⟩ := goals_hold_in_order Clock.stopped domain PlannerConfig.standard
    State.empty entries r p rfl rfl h hp
  exact ⟨r, p, rfl, rfl, h, hp, htexts, places, last _ rfl⟩

end Errand

end Chronoplan
