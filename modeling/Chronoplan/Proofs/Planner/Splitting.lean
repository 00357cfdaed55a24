import Chronoplan.Proofs.Planner.Goals

/-!
# Multigoals that are split

A multigoal that does not hold is split into its goals that do not hold and the multigoal once
more. So it stays behind everything that is done for it, and it leaves the work list only at a
state in which all its goals hold, even where no goal is verified.
-/

set_option autoImplicit false

namespace Chronoplan
open Exploration

/-- The method splits every multigoal by the goals of the domain. -/
def Domain.SplitsBy (d : Domain) (f : Callback Multigoal) : Prop :=
  ∀ s m, f.run s m = do return .items ((← d.split s m).map .item) false

namespace Domain

variable (d : Domain) (s : State) (m : Multigoal)

theorem achieved_several_iff : d.achieved s (.several m) = .ok true ↔
    ∀ g ∈ m.goals, d.unigoalHolds s g = .ok true := by
  constructor
  · intro h
    obtain ⟨gs, hgs, h⟩ := (bind_eq_ok_iff _ _ _).mp h
    obtain ⟨keep, answers, rfl⟩ := exists_filter_of_filterM _ _ _ hgs
    have none := List.filter_eq_nil_iff.mp (List.isEmpty_iff.mp (Except.ok.inj h))
    intro g hg
    obtain ⟨holds, hholds, hkeep⟩ := (bind_eq_ok_iff _ _ _).mp (answers g hg)
    have kept : (!holds) = keep g := Except.ok.inj hkeep
    rw [hholds, (by simpa [← kept] using none g hg : holds = true)]
  · intro h
    have unachieved : d.unachieved s m = .ok [] := by
      rw [Domain.unachieved, filterM_eq_filter _ (fun _ => false) m.goals, List.filter_false]
      intro g hg
      rw [h g hg]
      rfl
    rw [achieved, unachieved]
    rfl

/-- A multigoal that does not hold is the last item of what it is split into. -/
theorem split_unachieved (items : List WorkItem) (unmet : d.achieved s (.several m) = .ok false)
    (h : d.split s m = .ok items) : ∃ front, items = front ++ [.goal (.several m)] := by
  obtain ⟨gs, hgs, hempty⟩ := (bind_eq_ok_iff _ _ _).mp unmet
  rw [split, hgs, ok_bind] at h
  cases gs with
  | nil => cases hempty
  | cons g gs => exact ⟨_, (Except.ok.inj h).symm⟩

end Domain

theorem branch_choose (ctx : Setting) (item item' : WorkItem) (depth depth' : ℕ)
    (methods : List Candidate) (h : branch ctx item depth = .ok (.choose item' depth' methods)) :
    ctx.domain.candidates item = .ok (some methods) := by
  obtain ⟨found, hfound, h⟩ := (bind_eq_ok_iff _ _ _).mp h
  rw [hfound]
  cases found with
  | none =>
    obtain ⟨-, h⟩ := (requireWritable_bind_iff _ _ _).mp h
    cases h
  | some offered =>
    cases offered with
    | nil =>
      obtain ⟨-, h⟩ := (requireWritable_bind_iff _ _ _).mp h
      cases h
    | cons m rest =>
      simp only [Option.getD_some] at h
      split at h
      · obtain ⟨-, h⟩ := (requireWritable_bind_iff _ _ _).mp h
        cases h
      · cases h
        rfl

/-- A goal offers its methods only where it does not hold. -/
theorem turn_goal_choose (ctx : Setting) (node : Node) (g : Goal) (item : WorkItem)
    (depth depth' : ℕ) (methods : List Candidate)
    (h : turn ctx node (.work (.item (.goal g)) depth) = .ok (.choose item depth' methods)) :
    ctx.domain.achieved node.state g = .ok false ∧
      ctx.domain.candidates (.goal g) = .ok (some methods) := by
  obtain ⟨holds, hholds, h⟩ := (bind_eq_ok_iff _ _ _).mp h
  cases holds with
  | true =>
    obtain ⟨-, h⟩ := (requireWritable_bind_iff _ _ _).mp h
    cases h
  | false => exact ⟨hholds, branch_choose ctx _ _ _ _ _ h⟩

theorem expanded_unverified (ctx : Setting) (hplain : ctx.config.verifyGoals = false)
    (item : WorkItem) (expansion : List Entry) (depth : ℕ) :
    expanded ctx item expansion depth = expansion.map fun e => .work e (depth + 1) := by
  cases item <;> simp [expanded, marks, hplain]

/-- The only refinement of a multigoal that is split ends with the multigoal. -/
theorem refinement_split (d : Domain) (m : Multigoal) (f : Callback Multigoal) (s : State)
    (methods : List Candidate) (c : Candidate) (expansion : List Entry) (splits : d.SplitsBy f)
    (only : Domain.registered? m.tag d.multigoals = .ok (some [f]))
    (unmet : d.achieved s (.several m) = .ok false) (item : WorkItem)
    (offered : d.candidates (.goal (.several m)) = .ok (some methods)) (hc : c ∈ methods)
    (h : c.refinement item s = .ok (some expansion)) :
    ∃ front, expansion = front ++ [.item (.goal (.several m))] := by
  have single : methods = [Domain.fill m f] := by
    simp only [Domain.candidates, only, ok_bind, pure_eq_ok, Option.map_some] at offered
    exact (Option.some.inj (Except.ok.inj offered)).symm
  obtain rfl := List.mem_singleton.mp (single ▸ hc)
  obtain ⟨outcome, hrun, h⟩ := (bind_eq_ok_iff _ _ _).mp h
  obtain ⟨items, hitems, houtcome⟩ := (bind_eq_ok_iff _ _ _).mp ((splits s m).symm.trans hrun)
  cases houtcome
  obtain ⟨-, h⟩ := (requireWritable_bind_iff _ _ _).mp h
  cases h
  obtain ⟨front, rfl⟩ := d.split_unachieved s m items unmet hitems
  exact ⟨front.map .item, by rw [List.map_append]; rfl⟩

/-- Where a multigoal that is split comes last in a work list, the branch ends at a state in which
it holds. The induction is along the branch: the multigoal stays last until a turn finds that it
holds. -/
theorem arrives_split (ctx : Setting) (hplain : ctx.config.verifyGoals = false) (m : Multigoal)
    (f : Callback Multigoal) (splits : ctx.domain.SplitsBy f)
    (only : Domain.registered? m.tag ctx.domain.multigoals = .ok (some [f])) (node n : Node)
    (front : List Pending) (depth : ℕ)
    (hp : node.pending = front ++ [.work (.item (.goal (.several m))) depth])
    (h : Arrives ctx node (.found n)) :
    ctx.domain.achieved n.state (.several m) = .ok true := by
  generalize he : Ending.found n = ending at h
  induction h generalizing front depth with
  | found node hnil =>
    rw [hnil] at hp
    exact absurd hp (by simp)
  | failed => cases he
  | fatal => cases he
  | proceed node n' first rest ending hfirst ht hn ih =>
    subst he
    rw [hfirst] at hp
    cases front with
    | nil =>
      -- the multigoal is all that is left, and it is dropped because it holds
      cases hp
      obtain ⟨rfl, holds⟩ := turn_goal_proceed ctx _ n' _ depth ht
      rw [arrives_nil ctx _ n hn rfl]
      exact holds
    | cons p front =>
      cases hp
      exact ih front depth (turn_pending ctx _ n' _ ht) rfl
  | refined node first rest item depth' methods c expansion ending hfirst ht hc hr hn ih =>
    rw [hfirst] at hp
    cases front with
    | nil =>
      cases hp
      obtain ⟨heq, -⟩ := turn_choose ctx _ _ item depth' methods ht
      cases heq
      obtain ⟨unmet, offered⟩ := turn_goal_choose ctx _ _ _ _ _ _ ht
      obtain ⟨goals, rfl⟩ := refinement_split ctx.domain m f node.state methods c expansion splits
        only unmet _ offered hc hr
      refine ih (goals.map fun e => .work e (depth' + 1)) (depth' + 1) ?_ he
      rw [refined, expanded_unverified ctx hplain, List.append_nil, List.map_append]
      rfl
    | cons p front =>
      cases hp
      exact ih (expanded ctx item expansion depth' ++ front) depth (List.append_assoc _ _ _).symm he

/-- In a dry run that verifies no goals, a multigoal that comes last and that only splitting can
refine holds in the final state of the plan, goal by goal, whatever the methods of its goals undo
on the way. -/
theorem split_multigoal_holds (clock : Clock) (d : Domain) (config : PlannerConfig) (s : State)
    (entries : List Entry) (m : Multigoal) (f : Callback Multigoal) (r : PlanResult) (p : Plan)
    (hdry : config.execute = false) (hplain : config.verifyGoals = false)
    (splits : d.SplitsBy f) (only : Domain.registered? m.tag d.multigoals = .ok (some [f]))
    (last : entries.getLast? = some (.item (.goal (.several m))))
    (h : plan clock d config s entries = .ok r) (hp : r.plan = .ok p) :
    ∀ g ∈ m.goals, d.unigoalHolds p.finalState g = .ok true := by
  obtain ⟨n, j, hs, rfl⟩ := plan_found clock d config s entries r p hdry h hp
  obtain ⟨choice, hc⟩ := search_found _ _ n _ j hs
  obtain ⟨front, rfl⟩ := List.getLast?_eq_some_iff.mp last
  refine (d.achieved_several_iff n.state m).mp ?_
  refine arrives_split _ hplain m f splits only _ n (front.map fun e => .work e 0) 0 ?_
    (follow_arrives _ choice _ _ hc)
  simp [Live.root]

/-! ### A garage

A car is to be washed and driven. Driving makes it dirty, so the goal that is split sends it to
be washed once more. -/

namespace Garage

def put (name : String) (v : Bool) (s : State) : State :=
  s.write { category := defaultCategory, name := .str name, entities := [.str "car"] } (.bool v)

def command (name : String) (serial : ℕ) (effect : State → State) : Callback (List Value) :=
  { name, serial, run := fun s _ => .ok (.state (effect s)) }

def method (serial : ℕ) (name : String) : Callback (Value × Value) :=
  { name, serial, run := fun _ _ => .ok (.items [.item (.command ⟨.str name, []⟩)] false) }

def splitter : Callback Multigoal :=
  { name := "split", serial := 4
    run := fun s m => do return .items ((← (Domain.empty "garage").split s m).map .item) false }

def domain : Domain :=
  { Domain.empty "garage" with
    commands := [
      ("wash", command "wash" 0 (put "clean" true)),
      ("drive", command "drive" 1 fun s => put "clean" false (put "driven" true s))]
    unigoals := [("clean", [method 2 "wash"]), ("driven", [method 3 "drive"])]
    multigoals := [("", [splitter])] }

def goal (name : String) : Unigoal :=
  { predicate := .str name, entity := .str "car", target := .bool true }

def goals : Multigoal := { goals := [goal "clean", goal "driven"], tag := .str "" }

def config : PlannerConfig := { PlannerConfig.standard with verifyGoals := false }

theorem washed_again : ∃ r p, config.execute = false ∧ config.verifyGoals = false ∧
    domain.SplitsBy splitter ∧
    Domain.registered? goals.tag domain.multigoals = .ok (some [splitter]) ∧
    plan Clock.stopped domain config State.empty [.item (.goal (.several goals))] = .ok r ∧
    r.plan = .ok p ∧
    p.commands.map Call.text = ["wash()", "drive()", "wash()"] ∧
    ∀ g ∈ goals.goals, domain.unigoalHolds p.finalState g = .ok true := by
  have texts : (planOf (plan Clock.stopped domain config State.empty
      [.item (.goal (.several goals))])).map (fun p => p.commands.map Call.text) =
        some ["wash()", "drive()", "wash()"] := by
    decide +kernel
  obtain ⟨p, hplan, htexts⟩ := Option.map_eq_some_iff.mp texts
  obtain ⟨r, h, hp⟩ := (planOf_eq_some_iff _ p).mp hplan
  have splits : domain.SplitsBy splitter := fun _ _ => rfl
  have holds := split_multigoal_holds Clock.stopped domain config State.empty
    [.item (.goal (.several goals))] goals splitter r p rfl rfl splits rfl rfl h hp
  exact ⟨r, p, rfl, rfl, splits, rfl, h, hp, htexts, holds⟩

end Garage

end Chronoplan
