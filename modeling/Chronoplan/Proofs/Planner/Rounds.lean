import Chronoplan.Proofs.Planner.Deeds

/-!
# The rounds of a run

A run that carries its plans out goes through rounds: in each it finds a plan and tries the
commands that are new in it, up to the first that fails. The rounds are read off the log of the
run, each from a search that finds a plan and the calls that follow it, and the commands of the
final plan turn out to be those that succeeded when they were tried.
-/

set_option autoImplicit false

namespace Chronoplan
open Exploration

/-- A call of an actuator, or of a command function in its place, on a live state. -/
structure Trial where
  command : Call
  before : State
  outcome : Outcome

def Trial.succeeded (t : Trial) : Bool := t.outcome.reached?.isSome

/-- The state after a trial. A failure changes nothing. -/
def Trial.after (s : State) (t : Trial) : State := t.outcome.reached?.getD s

def successes (trials : List Trial) : List Trial := trials.filter Trial.succeeded

def stateAfter (s : State) (trials : List Trial) : State := trials.foldl Trial.after s

/-- What a search began with and found, and what became of the plan. -/
structure Round where
  before : Live
  found : Node
  trials : List Trial

def trialsOf (rounds : List Round) : List Trial := rounds.flatMap Round.trials

namespace Deed

def isCall : Deed → Bool
  | .search _ => false
  | .call _ _ _ => true

def trial? : Deed → Option Trial
  | .call c s (.ok outcome) => some { command := c, before := s, outcome }
  | _ => none

end Deed

def trialsIn (log : List Deed) : List Trial := log.filterMap Deed.trial?

/-- What had been carried out where a search begins. -/
def Quest.live (q : Quest) : Live :=
  { state := q.root.state
    executed := q.root.commands
    schedule := q.root.schedule
    network := q.root.network }

def Quest.found? (q : Quest) : Option Node :=
  match search q.setting q.root q.journal with
  | .ok (.found n, _) => some n
  | _ => none

theorem Quest.found_of_search (ctx : Setting) (root n : Node) (j j' : Journal)
    (h : search ctx root j = .ok (.found n, j')) : Quest.found? ⟨ctx, root, j⟩ = some n := by
  simp only [found?, h]

def roundsOf : List Deed → List Round
  | [] => []
  | .call _ _ _ :: rest => roundsOf rest
  | .search q :: rest =>
    match q.found? with
    | none => roundsOf rest
    | some n =>
      { before := q.live, found := n, trials := trialsIn (rest.takeWhile Deed.isCall) }
        :: roundsOf rest

/-- The result of a logged computation with what is read off its log. -/
def Logged.recorded {α β : Type} (read : List Deed → β) (x : Logged α) : Except Fault (α × β) := do
  return (← x.result, read x.log)

theorem Logged.recorded_eq_ok_iff {α β : Type} (read : List Deed → β) (x : Logged α) (a : α)
    (b : β) : x.recorded read = .ok (a, b) ↔ x.result = .ok a ∧ read x.log = b := by
  unfold recorded
  cases x.result with
  | error e => simp
  | ok a' => simp [pure_eq_ok]

def Live.carryOutRecorded (d : Domain) (commands : List Call) (planned : List Action) (l : Live) :
    Except Fault ((Live × Option Call) × List Trial) :=
  (carryOutLogged d commands planned l).recorded trialsIn

def planRecorded (clock : Clock) (d : Domain) (config : PlannerConfig) (s : State)
    (entries : List Entry) : Except Fault (PlanResult × List Round) :=
  (planLogged clock d config s entries).recorded roundsOf

theorem planRecorded_eq_ok_iff (clock : Clock) (d : Domain) (config : PlannerConfig) (s : State)
    (entries : List Entry) (r : PlanResult) (rounds : List Round) :
    planRecorded clock d config s entries = .ok (r, rounds) ↔
      plan clock d config s entries = .ok r ∧
        roundsOf (planLogged clock d config s entries).log = rounds := by
  rw [← planLogged_result]
  exact Logged.recorded_eq_ok_iff roundsOf _ r rounds

theorem plan_recorded (clock : Clock) (d : Domain) (config : PlannerConfig) (s : State)
    (entries : List Entry) (r : PlanResult) (h : plan clock d config s entries = .ok r) :
    ∃ rounds, planRecorded clock d config s entries = .ok (r, rounds) :=
  ⟨_, (planRecorded_eq_ok_iff clock d config s entries r _).mpr ⟨h, rfl⟩⟩

/-- What can be read off the plan and the rounds of a run holds of what the planner returns. -/
theorem exists_recorded {α : Type} (clock : Clock) (d : Domain) (config : PlannerConfig)
    (s : State) (entries : List Entry) (read : Plan → List Round → α) (x : α)
    (h : (planRecorded clock d config s entries).toOption.bind (fun recorded =>
      recorded.1.plan.toOption.map fun p => read p recorded.2) = some x) :
    ∃ r p rounds, plan clock d config s entries = .ok r ∧ r.plan = .ok p ∧
      planRecorded clock d config s entries = .ok (r, rounds) ∧ read p rounds = x := by
  obtain ⟨⟨r, rounds⟩, hrec, h⟩ := Option.bind_eq_some_iff.mp h
  obtain ⟨p, hp, hread⟩ := Option.map_eq_some_iff.mp h
  have hrec := toOption_eq_some_iff.mp hrec
  have hplan := ((planRecorded_eq_ok_iff clock d config s entries r rounds).mp hrec).1
  exact ⟨r, p, rounds, hplan, toOption_eq_some_iff.mp hp, hrec, hread⟩

/-! ### Rounds in a log -/

/-- What begins with a search, if with anything. -/
def BeginsAnew (log : List Deed) : Prop := log.takeWhile Deed.isCall = []

theorem roundsOf_calls (calls later : List Deed) (h : ∀ deed ∈ calls, deed.isCall = true) :
    roundsOf (calls ++ later) = roundsOf later := by
  induction calls with
  | nil => rfl
  | cons deed calls ih =>
    obtain ⟨hdeed, hcalls⟩ := List.forall_mem_cons.mp h
    cases deed with
    | search q => cases hdeed
    | call c s answer => exact ih hcalls

/-- A search that finds a plan and the calls after it are a round. -/
theorem roundsOf_round (q : Quest) (n : Node) (calls later : List Deed) (hn : q.found? = some n)
    (h : ∀ deed ∈ calls, deed.isCall = true) (hlater : BeginsAnew later) :
    roundsOf (.search q :: (calls ++ later)) = ⟨q.live, n, trialsIn calls⟩ :: roundsOf later := by
  rw [roundsOf, hn]
  simp only [roundsOf_calls calls later h]
  rw [List.takeWhile_append_of_pos h, hlater, List.append_nil]

/-! ### What is carried out -/

/-- Every trial was made on the state that those before it lead to. -/
def Tried (d : Domain) : State → List Trial → Prop
  | _, [] => True
  | s, t :: rest =>
    t.before = s ∧ Live.answer d s t.command = .ok t.outcome ∧ Tried d (t.after s) rest

theorem stateAfter_append (s : State) (front rest : List Trial) :
    stateAfter s (front ++ rest) = stateAfter (stateAfter s front) rest :=
  List.foldl_append

theorem tried_append (d : Domain) (s : State) (front rest : List Trial) :
    Tried d s (front ++ rest) ↔ Tried d s front ∧ Tried d (stateAfter s front) rest := by
  induction front generalizing s with
  | nil => simp [Tried, stateAfter]
  | cons t front ih =>
    simp only [List.cons_append, Tried, ih, and_assoc]
    rfl

theorem successes_append (front rest : List Trial) :
    successes (front ++ rest) = successes front ++ successes rest :=
  List.filter_append _ _

/-- Failures leave the state as it is, so it is the successes alone that lead to it. -/
theorem stateAfter_successes (s : State) (trials : List Trial) :
    stateAfter s (successes trials) = stateAfter s trials := by
  induction trials generalizing s with
  | nil => rfl
  | cons t rest ih =>
    cases h : t.outcome.reached? with
    | none =>
      have hafter : t.after s = s := by simp [Trial.after, h]
      simpa [successes, stateAfter, Trial.succeeded, h, hafter] using ih s
    | some s' => simpa [successes, stateAfter, Trial.succeeded, h] using ih (t.after s)

/-- The first command is tried; it fails and is the last, or its action is kept and the others
follow. -/
theorem Live.carryOutRecorded_cons (d : Domain) (c : Call) (rest : List Call)
    (planned : List Action) (l l' : Live) (failed : Option Call) (trials : List Trial)
    (h : Live.carryOutRecorded d (c :: rest) planned l = .ok ((l', failed), trials)) :
    ∃ outcome, Live.answer d l.state c = .ok outcome ∧
      (outcome.reached? = none ∧ l' = l ∧ failed = some c ∧ trials = [⟨c, l.state, outcome⟩] ∨
        ∃ s kept later, outcome.reached? = some s ∧
          l.keepAny c (nextAction c planned).1 = .ok kept ∧
          Live.carryOutRecorded d rest (nextAction c planned).2 (kept.after c s) =
            .ok ((l', failed), later) ∧ trials = ⟨c, l.state, outcome⟩ :: later) := by
  obtain ⟨hresult, htrials⟩ := (Logged.recorded_eq_ok_iff _ _ _ _).mp h
  rw [carryOutLogged] at hresult htrials
  obtain ⟨outcome, hanswer, hnext, hlog⟩ := Logged.bind_eq_ok hresult
  have hanswer : Live.answer d l.state c = .ok outcome := hanswer
  rw [hlog] at htrials
  refine ⟨outcome, hanswer, ?_⟩
  cases hs : outcome.reached? with
  | none =>
    simp only [hs] at hnext htrials
    cases hnext
    subst htrials
    exact .inl ⟨rfl, rfl, rfl, by simp [answerLogged, hanswer, trialsIn, Deed.trial?]⟩
  | some s =>
    simp only [hs] at hnext htrials
    obtain ⟨kept, hkept, hlater, hlog'⟩ := Logged.bind_eq_ok hnext
    rw [hlog'] at htrials
    refine .inr ⟨s, kept, _, rfl, hkept, (Logged.recorded_eq_ok_iff _ _ _ _).mpr ⟨hlater, rfl⟩, ?_⟩
    rw [← htrials]
    simp [answerLogged, hanswer, trialsIn, Deed.trial?]

/-- What becomes of commands that are carried out: those that succeed are recorded as such, and
without a failure they all do. -/
structure CarriedOut (d : Domain) (commands : List Call) (l l' : Live) (failed : Option Call)
    (trials : List Trial) : Prop where
  tried : Tried d l.state trials
  state : l'.state = stateAfter l.state trials
  executed : l'.executed = l.executed ++ (successes trials).map Trial.command
  complete : failed = none → (successes trials).map Trial.command = commands

theorem carryOutRecorded_carriedOut (d : Domain) (commands : List Call) (planned : List Action)
    (l l' : Live) (failed : Option Call) (trials : List Trial)
    (h : Live.carryOutRecorded d commands planned l = .ok ((l', failed), trials)) :
    CarriedOut d commands l l' failed trials := by
  induction commands generalizing planned l trials with
  | nil =>
    cases h
    exact ⟨trivial, rfl, (List.append_nil _).symm, fun _ => rfl⟩
  | cons c rest ih =>
    obtain ⟨outcome, hanswer,
        ⟨hnone, rfl, rfl, rfl⟩ | ⟨s, kept, later, hs, hkept, hlater, rfl⟩⟩ :=
      Live.carryOutRecorded_cons d c rest planned l l' failed trials h
    · constructor
      · exact ⟨rfl, hanswer, trivial⟩
      · simp [stateAfter, Trial.after, hnone]
      · simp [successes, Trial.succeeded, hnone]
      · intro hfailed
        cases hfailed
    · obtain ⟨-, hexecuted⟩ := Live.keepAny_frame l kept _ _ hkept
      have hafter : Trial.after l.state ⟨c, l.state, outcome⟩ = s := by simp [Trial.after, hs]
      have hsuccesses : successes (⟨c, l.state, outcome⟩ :: later) =
          ⟨c, l.state, outcome⟩ :: successes later := by
        simp [successes, Trial.succeeded, hs]
      obtain ⟨htried, hstate, hexecuted', hcomplete⟩ := ih _ _ later hlater
      constructor
      · exact ⟨rfl, hanswer, by rw [hafter]; exact htried⟩
      · rw [hstate, ← hafter]
        rfl
      · rw [hexecuted', hsuccesses]
        simp [Live.after, hexecuted]
      · intro hfailed
        rw [hsuccesses, List.map_cons, hcomplete hfailed]

/-! ### From round to round -/

/-- How a run comes from what has been carried out to its plan. The plan that a search finds goes
on from the commands that were carried out before. -/
inductive Unfolds (d : Domain) : Live → List Round → Plan → Prop
  | last (l l' : Live) (n : Node) (trials : List Trial) (hfound : Extends d (l.root []) n)
      (hcarried : Live.carryOutRecorded d (n.commands.drop l.executed.length)
        (n.schedule.drop l.schedule.length) l = .ok ((l', none), trials)) :
      Unfolds d l [⟨l, n, trials⟩] { n.toPlan with finalState := l'.state }
  | again (l l' : Live) (n : Node) (failed : Call) (trials : List Trial) (rounds : List Round)
      (p : Plan) (hfound : Extends d (l.root []) n)
      (hcarried : Live.carryOutRecorded d (n.commands.drop l.executed.length)
        (n.schedule.drop l.schedule.length) l = .ok ((l', some failed), trials))
      (hrest : Unfolds d l' rounds p) : Unfolds d l (⟨l, n, trials⟩ :: rounds) p

theorem search_extends (ctx : Setting) (entries : List Entry) (l : Live) (n : Node)
    (j j' : Journal) (h : search ctx (l.root entries) j = .ok (.found n, j')) :
    Extends ctx.domain (l.root []) n := by
  obtain ⟨choice, hc⟩ := search_found ctx (l.root entries) n j j' h
  exact arrives_extends ctx (l.root entries) n (follow_arrives ctx choice _ _ hc)

theorem Live.isCall_of_carryOutLogged (d : Domain) (commands : List Call) (planned : List Action)
    (l : Live) : ∀ deed ∈ (carryOutLogged d commands planned l).log, deed.isCall = true := by
  intro deed hdeed
  obtain ⟨c, -, hcalled⟩ := called_of_carryOutLogged d commands planned l deed hdeed
  cases deed with
  | search q => cases hcalled
  | call c s answer => rfl

theorem runLiveLogged_beginsAnew (ctx : Setting) (entries : List Entry) (replans : ℕ) (l : Live)
    (j : Journal) : BeginsAnew (runLiveLogged ctx entries replans l j).log := by
  rw [runLiveLogged.eq_def]
  cases hs : (searchLogged ctx (l.root entries) j).result with
  | error e =>
    rw [Logged.log_bind_error hs]
    rfl
  | ok ended =>
    rw [Logged.log_bind_ok hs]
    rfl

/-- The induction is on the replans that are left. -/
theorem runLiveLogged_unfolds (ctx : Setting) (entries : List Entry) (replans : ℕ) (l : Live)
    (j j' : Journal) (p : Plan)
    (h : (runLiveLogged ctx entries replans l j).result = .ok (.ok p, j')) :
    Unfolds ctx.domain l (roundsOf (runLiveLogged ctx entries replans l j).log) p := by
  induction replans using Nat.strong_induction_on generalizing ctx l j with
  | _ replans ih =>
    rw [runLiveLogged.eq_def] at h ⊢
    obtain ⟨⟨v, searched⟩, hs, h, hlog⟩ := Logged.bind_eq_ok h
    rw [hlog]
    cases v with
    | failed f => cases h
    | found n =>
      have hfound := search_extends ctx entries l n j searched hs
      have hquest := Quest.found_of_search ctx (l.root entries) n j searched hs
      obtain ⟨⟨l', failed⟩, hcarried, h, hlog⟩ := Logged.bind_eq_ok h
      have hcalls := Live.isCall_of_carryOutLogged ctx.domain (n.commands.drop l.executed.length)
        (n.schedule.drop l.schedule.length) l
      have hrecorded := (Logged.recorded_eq_ok_iff trialsIn _ _ _).mpr ⟨hcarried, rfl⟩
      rw [hlog]
      cases failed with
      | none =>
        cases h
        simp only [Logged.log_pure]
        rw [searchLogged, List.singleton_append, roundsOf_round _ n _ [] hquest hcalls rfl]
        exact .last l l' n _ hfound hrecorded
      | some c =>
        obtain ⟨blacklist, hblacklist, h, hlog⟩ := Logged.bind_eq_ok h
        cases replans with
        | zero =>
          obtain ⟨_, -, h, -⟩ := Logged.bind_eq_ok h
          cases h
        | succ replans =>
          simp only at h hlog ⊢
          have later := runLiveLogged_beginsAnew { ctx with blacklist } entries replans l'
            (searched.replan c)
          rw [hlog, Logged.log_silent, List.nil_append, searchLogged, List.singleton_append,
            roundsOf_round _ n _ _ hquest hcalls later]
          exact .again l l' n c _ _ p hfound hrecorded
            (ih replans (Nat.lt_succ_self _) { ctx with blacklist } l' (searched.replan c) h)

theorem planRecorded_unfolds (clock : Clock) (d : Domain) (config : PlannerConfig) (s : State)
    (entries : List Entry) (r : PlanResult) (rounds : List Round) (p : Plan)
    (hexec : config.execute = true)
    (h : planRecorded clock d config s entries = .ok (r, rounds)) (hp : r.plan = .ok p) :
    Unfolds d (Live.start s config.network) rounds p := by
  obtain ⟨hresult, rfl⟩ := (Logged.recorded_eq_ok_iff roundsOf _ _ _).mp h
  rw [planLogged_log]
  obtain ⟨⟨plan, j⟩, hrun, h, -⟩ := Logged.bind_eq_ok hresult
  cases h
  simp only at hp
  subst hp
  obtain ⟨_, -, hrun, hlog⟩ := Logged.bind_eq_ok hrun
  have hlog : (runLogged clock d config s entries).log = _ := hlog
  rw [hlog]
  simp only [hexec, if_true] at hrun ⊢
  exact runLiveLogged_unfolds _ entries _ _ _ j p hrun

/-- A dry run is one round in which nothing is tried, and its plan is the one that is found. -/
theorem planRecorded_dry (clock : Clock) (d : Domain) (config : PlannerConfig) (s : State)
    (entries : List Entry) (r : PlanResult) (rounds : List Round) (p : Plan)
    (hdry : config.execute = false)
    (h : planRecorded clock d config s entries = .ok (r, rounds)) (hp : r.plan = .ok p) :
    ∃ n, Extends d ((Live.start s config.network).root []) n ∧
      rounds = [⟨Live.start s config.network, n, []⟩] ∧ p = n.toPlan := by
  obtain ⟨hresult, rfl⟩ := (Logged.recorded_eq_ok_iff roundsOf _ _ _).mp h
  rw [planLogged_log]
  obtain ⟨⟨plan, j⟩, hrun, h, -⟩ := Logged.bind_eq_ok hresult
  cases h
  simp only at hp
  subst hp
  obtain ⟨_, -, hrun, hlog⟩ := Logged.bind_eq_ok hrun
  have hlog : (runLogged clock d config s entries).log = _ := hlog
  rw [hlog]
  simp only [hdry, Bool.false_eq_true, if_false] at hrun ⊢
  obtain ⟨⟨v, searched⟩, hs, h, hlog⟩ := Logged.bind_eq_ok hrun
  cases v with
  | failed f => cases h
  | found n =>
    cases h
    refine ⟨n, search_extends _ entries _ n _ _ hs, ?_, rfl⟩
    rw [runDryLogged, hlog]
    exact roundsOf_round _ n [] [] (Quest.found_of_search _ _ n _ j hs) (by simp) rfl

theorem unfolds_successes (d : Domain) (l : Live) (rounds : List Round) (p : Plan)
    (h : Unfolds d l rounds p) :
    Tried d l.state (trialsOf rounds) ∧
      p.commands = l.executed ++ (successes (trialsOf rounds)).map Trial.command ∧
      p.finalState = stateAfter l.state (trialsOf rounds) := by
  induction h with
  | last l l' n trials hfound hcarried =>
    obtain ⟨added, hadded, -⟩ := hfound
    have hnew : n.commands.drop l.executed.length = added := by
      rw [hadded]
      exact List.drop_left' rfl
    obtain ⟨htried, hstate, -, hcomplete⟩ :=
      carryOutRecorded_carriedOut d _ _ l l' none trials hcarried
    have hall : trialsOf [⟨l, n, trials⟩] = trials := by simp [trialsOf]
    rw [hall]
    refine ⟨htried, ?_, hstate⟩
    rw [hcomplete rfl, hnew]
    exact hadded
  | again l l' n failed trials rounds p hfound hcarried hrest ih =>
    obtain ⟨htried, hstate, hexecuted, -⟩ :=
      carryOutRecorded_carriedOut d _ _ l l' (some failed) trials hcarried
    obtain ⟨htried', hcommands, hfinal⟩ := ih
    have hall : trialsOf (⟨l, n, trials⟩ :: rounds) = trials ++ trialsOf rounds := rfl
    rw [hall, tried_append, stateAfter_append, successes_append, ← hstate, List.map_append,
      ← List.append_assoc, ← hexecuted]
    exact ⟨⟨htried, htried'⟩, hcommands, hfinal⟩

/-- The commands of a plan that was carried out are those that succeeded when they were tried on
the live state, over all rounds and in the order of the trials, and the final state is what their
outcomes lead to. A command that was only planned or that failed is not among them. -/
theorem plan_eq_successes (clock : Clock) (d : Domain) (config : PlannerConfig) (s : State)
    (entries : List Entry) (r : PlanResult) (p : Plan) (hexec : config.execute = true)
    (h : plan clock d config s entries = .ok r) (hp : r.plan = .ok p) :
    ∃ rounds, planRecorded clock d config s entries = .ok (r, rounds) ∧
      Tried d s (trialsOf rounds) ∧
      p.commands = (successes (trialsOf rounds)).map Trial.command ∧
      p.finalState = stateAfter s (successes (trialsOf rounds)) := by
  obtain ⟨rounds, hrec⟩ := plan_recorded clock d config s entries r h
  have hunfolds := planRecorded_unfolds clock d config s entries r rounds p hexec hrec hp
  obtain ⟨htried, hcommands, hfinal⟩ := unfolds_successes d _ rounds p hunfolds
  refine ⟨rounds, hrec, htried, hcommands, ?_⟩
  rw [stateAfter_successes]
  exact hfinal

/-! ### A delivery

The counter is closed: a letter is mailed in vain and carried after another search. -/

namespace Delivery
open Journey (note command method)

def domain : Domain :=
  { Domain.empty "delivery" with
    commands := [
      ("stamp", command "stamp" 0 fun s => .state (note "stamped" s)),
      ("mail", command "mail" 1 fun s => .state (note "sent" s)),
      ("carry", command "carry" 2 fun s => .lasting {
        state := note "sent" s, duration := .int 5, deadline := .int 20, release := .int 2 })]
    tasks := [
      ("deliver", [method "by mail" 3 ["stamp", "mail"], method "by hand" 4 ["carry"]])]
    actuators := [("mail", command "counter" 5 fun _ => .refused (.str "closed"))] }

def entries : List Entry := [.item (.task ⟨.str "deliver", []⟩)]

def config : PlannerConfig := { PlannerConfig.standard with execute := true }

theorem carried_after_mailing : ∃ r p rounds, config.execute = true ∧
    plan Clock.stopped domain config State.empty entries = .ok r ∧ r.plan = .ok p ∧
    planRecorded Clock.stopped domain config State.empty entries = .ok (r, rounds) ∧
    p.commands = (successes (trialsOf rounds)).map Trial.command ∧
    p.finalState = stateAfter State.empty (successes (trialsOf rounds)) ∧
    p.commands.map Call.text = ["stamp()", "carry()"] ∧
    (trialsOf rounds).map (fun t => t.command.text) = ["stamp()", "mail()", "carry()"] := by
  obtain ⟨r, p, rounds, h, hp, hrec, htexts⟩ := exists_recorded Clock.stopped domain config
    State.empty entries (fun p rounds =>
      (p.commands.map Call.text, (trialsOf rounds).map fun t => t.command.text))
    (["stamp()", "carry()"], ["stamp()", "mail()", "carry()"]) (by decide +kernel)
  obtain ⟨hcommands, htrials⟩ := Prod.mk.inj htexts
  obtain ⟨rounds', hrec', -, hsuccesses, hfinal⟩ :=
    plan_eq_successes Clock.stopped domain config State.empty entries r p rfl h hp
  rw [hrec] at hrec'
  cases hrec'
  exact ⟨r, p, rounds, rfl, h, hp, hrec, hsuccesses, hfinal, hcommands, htrials⟩

end Delivery

end Chronoplan
