import Chronoplan.Proofs.Planner.Replay

/-!
# The log of a run

A run begins searches and calls actuators. Its log has both in their order, and it stays when a
fault ends the run. So the log speaks of every run, also of one that comes to no result. Without
its log the logged run is the run.
-/

set_option autoImplicit false

namespace Chronoplan

namespace Outcome

/-- The state that a command leads to, unless it failed. -/
def reached? : Outcome → Option State
  | .state s => some s
  | .lasting e => some e.state
  | _ => none

end Outcome

/-- What a search is begun with. -/
structure Quest where
  setting : Setting
  root : Node
  journal : Journal

/-- What a run does. A call is that of an actuator or of a command function in its place; it is
logged with the live state before it and with its answer. -/
inductive Deed
  | search (q : Quest)
  | call (c : Call) (before : State) (answer : Except Fault Outcome)

namespace Deed

def quest? : Deed → Option Quest
  | .search q => some q
  | .call _ _ _ => none

def called? : Deed → Option Call
  | .search _ => none
  | .call c _ _ => some c

/-- The command of a call whose answer has no state. -/
def failed? : Deed → Option Call
  | .call c _ (.ok outcome) => if outcome.reached?.isNone then some c else none
  | _ => none

def done? : Deed → Option Call
  | .call c _ (.ok outcome) => if outcome.reached?.isSome then some c else none
  | _ => none

/-- The live state after a deed. Only a call that succeeds changes it. -/
def after (s : State) : Deed → State
  | .call _ _ (.ok outcome) => outcome.reached?.getD s
  | _ => s

/-- A call of a command on a live state that fails. -/
def Fails (deed : Deed) (c : Call) (s : State) : Prop :=
  ∃ outcome, deed = .call c s (.ok outcome) ∧ outcome.reached? = none

theorem failed_eq_some_iff (deed : Deed) (c : Call) :
    deed.failed? = some c ↔ ∃ s, deed.Fails c s := by
  constructor
  · intro h
    cases deed with
    | search q => cases h
    | call c' s answer =>
      cases answer with
      | error e => cases h
      | ok outcome =>
        simp only [failed?, Option.isNone_iff_eq_none, Option.ite_none_right_eq_some] at h
        obtain ⟨failed, hc⟩ := h
        cases hc
        exact ⟨s, outcome, rfl, failed⟩
  · rintro ⟨s, outcome, rfl, failed⟩
    simp [failed?, failed]

section Fails

variable {deed : Deed} {c : Call} {s : State} (h : deed.Fails c s)
include h

theorem Fails.failed : deed.failed? = some c := (failed_eq_some_iff deed c).mpr ⟨s, h⟩

theorem Fails.called : deed.called? = some c := by
  obtain ⟨outcome, rfl, -⟩ := h
  rfl

theorem Fails.quest : deed.quest? = none := by
  obtain ⟨outcome, rfl, -⟩ := h
  rfl

theorem Fails.done : deed.done? = none := by
  obtain ⟨outcome, rfl, failed⟩ := h
  simp [done?, failed]

theorem Fails.unique {c' : Call} {s' : State} (h' : deed.Fails c' s') : c' = c ∧ s' = s := by
  obtain ⟨outcome, rfl, -⟩ := h
  obtain ⟨outcome', hdeed, -⟩ := h'
  cases hdeed
  exact ⟨rfl, rfl⟩

theorem Fails.after (s₀ : State) : deed.after s₀ = s₀ := by
  obtain ⟨outcome, rfl, failed⟩ := h
  simp [Deed.after, failed]

end Fails

end Deed

def questsOf (log : List Deed) : List Quest := log.filterMap Deed.quest?

theorem mem_questsOf_iff (log : List Deed) (q : Quest) : q ∈ questsOf log ↔ .search q ∈ log := by
  refine List.mem_filterMap.trans ⟨?_, fun h => ⟨.search q, h, rfl⟩⟩
  rintro ⟨deed, hdeed, hq⟩
  cases deed with
  | search q' => rwa [← Option.some.inj hq]
  | call c s answer => cases hq

def callsOf (log : List Deed) : List Call := log.filterMap Deed.called?

def failuresOf (log : List Deed) : List Call := log.filterMap Deed.failed?

/-- The commands that were carried out, in their order. -/
def executedIn (log : List Deed) : List Call := log.filterMap Deed.done?

def reachedBy (s : State) (log : List Deed) : State := log.foldl Deed.after s

/-- A computation with the log of what it did, whether it comes to a result or to a fault. -/
structure Logged (α : Type) where
  log : List Deed
  result : Except Fault α

namespace Logged

variable {α β : Type}

/-- A computation that does nothing to be logged. -/
def silent (x : Except Fault α) : Logged α := { log := [], result := x }

def bind (x : Logged α) (f : α → Logged β) : Logged β :=
  match x.result with
  | .error e => { log := x.log, result := .error e }
  | .ok a => { log := x.log ++ (f a).log, result := (f a).result }

instance : Monad Logged where
  pure a := silent (.ok a)
  bind := bind

@[simp] theorem log_silent (x : Except Fault α) : (silent x).log = [] := rfl

@[simp] theorem result_silent (x : Except Fault α) : (silent x).result = x := rfl

@[simp] theorem log_pure (a : α) : (pure a : Logged α).log = [] := rfl

@[simp] theorem result_pure (a : α) : (pure a : Logged α).result = .ok a := rfl

@[simp] theorem result_bind (x : Logged α) (f : α → Logged β) :
    (x >>= f).result = x.result >>= fun a => (f a).result := by
  cases h : x.result <;> simp [Bind.bind, bind, h, Except.bind]

/-- A computation that comes to a result comes through its parts and logs what they do. -/
theorem bind_eq_ok {x : Logged α} {f : α → Logged β} {b : β} (h : (x >>= f).result = .ok b) :
    ∃ a, x.result = .ok a ∧ (f a).result = .ok b ∧ (x >>= f).log = x.log ++ (f a).log := by
  rw [result_bind] at h
  obtain ⟨a, ha, hb⟩ := (bind_eq_ok_iff _ _ _).mp h
  exact ⟨a, ha, hb, by simp [Bind.bind, bind, ha]⟩

theorem log_bind_ok {x : Logged α} {a : α} (h : x.result = .ok a) (f : α → Logged β) :
    (x >>= f).log = x.log ++ (f a).log := by
  simp [Bind.bind, bind, h]

theorem log_bind_error {x : Logged α} {e : Fault} (h : x.result = .error e) (f : α → Logged β) :
    (x >>= f).log = x.log := by
  simp [Bind.bind, bind, h]

theorem mem_log_bind (x : Logged α) (f : α → Logged β) (deed : Deed) :
    deed ∈ (x >>= f).log ↔ deed ∈ x.log ∨ ∃ a, x.result = .ok a ∧ deed ∈ (f a).log := by
  cases h : x.result with
  | error e => simp [log_bind_error h]
  | ok a => simp [log_bind_ok h]

end Logged

/-! ### Runs with their log -/

def searchLogged (ctx : Setting) (root : Node) (j : Journal) : Logged (Verdict × Journal) :=
  { log := [.search { setting := ctx, root, journal := j }], result := search ctx root j }

namespace Live

/-- The actuator of a command or, where there is none, its command function. -/
def executor (d : Domain) (c : Call) : Except Fault (Callback (List Value)) := do
  match ← Domain.registered? c.name d.actuators with
  | some f => return f
  | none => orFault .unknownKey (← Domain.registered? c.name d.commands)

def answer (d : Domain) (s : State) (c : Call) : Except Fault Outcome := do
  (← executor d c).run s c.args

def answerLogged (d : Domain) (s : State) (c : Call) : Logged Outcome :=
  { log := [.call c s (answer d s c)], result := answer d s c }

def keepAny (l : Live) (c : Call) : Option Action → Except Fault Live
  | some a => l.keep c a
  | none => pure l

/-- Live values after a command that leads to a state, with the rest as it was kept. -/
def after (l : Live) (c : Call) (s : State) : Live :=
  { l with state := s, executed := l.executed ++ [c] }

def carryOutLogged (d : Domain) : List Call → List Action → Live → Logged (Live × Option Call)
  | [], _, l => pure (l, none)
  | c :: rest, planned, l => do
    match (← answerLogged d l.state c).reached? with
    | none => return (l, some c)
    | some s =>
      let kept ← .silent (l.keepAny c (nextAction c planned).1)
      carryOutLogged d rest (nextAction c planned).2 (kept.after c s)

theorem keepAny_frame (l kept : Live) (c : Call) (action : Option Action)
    (h : l.keepAny c action = .ok kept) : kept.state = l.state ∧ kept.executed = l.executed := by
  cases action with
  | none =>
    cases h
    exact ⟨rfl, rfl⟩
  | some a =>
    obtain ⟨duration, -, h⟩ := (bind_eq_ok_iff _ _ _).mp h
    obtain ⟨network, -, h⟩ := (bind_eq_ok_iff _ _ _).mp h
    cases h
    exact ⟨rfl, rfl⟩

end Live

def runLiveLogged (ctx : Setting) (entries : List Entry) :
    ℕ → Live → Journal → Logged (Except Failure Plan × Journal)
  | replans, l, j => do
    match ← searchLogged ctx (l.root entries) j with
    | (.failed f, j) => return (.error f, j)
    | (.found n, j) =>
      match ← Live.carryOutLogged ctx.domain (n.commands.drop l.executed.length)
          (n.schedule.drop l.schedule.length) l with
      | (l, none) => return (.ok { n.toPlan with finalState := l.state }, j)
      | (l, some failed) =>
        let blacklist ← .silent (ctx.blacklist.add failed)
        match replans with
        | 0 =>
          .silent (requireWritable (Value.int ctx.config.budgets.maxReplans).isWritable)
          return (.error (replanLimit ctx.config.budgets.maxReplans failed), j.replan failed)
        | replans + 1 => runLiveLogged { ctx with blacklist } entries replans l (j.replan failed)

def runDryLogged (ctx : Setting) (entries : List Entry) (l : Live) (j : Journal) :
    Logged (Except Failure Plan × Journal) := do
  match ← searchLogged ctx (l.root entries) j with
  | (.failed f, j) => return (.error f, j)
  | (.found n, j) => return (.ok n.toPlan, j)

/-- The run with its whole journal. -/
def runLogged (clock : Clock) (d : Domain) (config : PlannerConfig) (s : State)
    (entries : List Entry) : Logged (Except Failure Plan × Journal) := do
  .silent d.validate
  let ctx : Setting := { domain := d, config, blacklist := [], clock }
  let l := Live.start s config.network
  let j := Journal.new config.includeTrace
  if config.execute then runLiveLogged ctx entries config.budgets.maxReplans.toNat l j
  else runDryLogged ctx entries l j

def planLogged (clock : Clock) (d : Domain) (config : PlannerConfig) (s : State)
    (entries : List Entry) : Logged PlanResult := do
  let (plan, j) ← runLogged clock d config s entries
  return { plan, stats := j.stats, elapsed := clock.total j.stats, events := j.trace.events }

theorem planLogged_log (clock : Clock) (d : Domain) (config : PlannerConfig) (s : State)
    (entries : List Entry) :
    (planLogged clock d config s entries).log = (runLogged clock d config s entries).log := by
  cases hrun : (runLogged clock d config s entries).result with
  | error e => exact Logged.log_bind_error hrun _
  | ok ended => exact (Logged.log_bind_ok hrun _).trans (List.append_nil _)

namespace Live

/-- Only commands of the plan are called. -/
theorem called_of_carryOutLogged (d : Domain) (commands : List Call) (planned : List Action)
    (l : Live) (deed : Deed) (h : deed ∈ (carryOutLogged d commands planned l).log) :
    ∃ c ∈ commands, deed.called? = some c := by
  induction commands generalizing planned l with
  | nil => cases h
  | cons c rest ih =>
    obtain h | ⟨outcome, -, h⟩ := (Logged.mem_log_bind _ _ deed).mp h
    · obtain rfl := List.mem_singleton.mp h
      exact ⟨c, List.mem_cons_self, rfl⟩
    · split at h
      · cases h
      · obtain h | ⟨kept, -, h⟩ := (Logged.mem_log_bind _ _ deed).mp h
        · cases h
        · obtain ⟨c', hc', hcalled⟩ := ih _ _ h
          exact ⟨c', List.mem_cons_of_mem c hc', hcalled⟩

end Live

/-! ### Without the log -/

theorem Live.actuate_eq_answer (d : Domain) (s : State) (c : Call) :
    Live.actuate d s c = (do return (← Live.answer d s c).reached?) := by
  simp only [actuate, answer, executor, bind_assoc, pure_bind]
  refine bind_congr fun found => ?_
  cases found with
  | some f =>
    simp only [pure_bind]
    refine bind_congr fun outcome => ?_
    cases outcome <;> rfl
  | none =>
    simp only [bind_assoc]
    refine bind_congr fun found => bind_congr fun f => bind_congr fun outcome => ?_
    cases outcome <;> rfl

theorem Live.carryOutLogged_result (d : Domain) (commands : List Call) (planned : List Action)
    (l : Live) : (Live.carryOutLogged d commands planned l).result =
      Live.carryOut d commands planned l := by
  induction commands generalizing planned l with
  | nil => rfl
  | cons c rest ih =>
    simp only [carryOutLogged, carryOut, actuate_eq_answer, Logged.result_bind, bind_assoc,
      pure_bind]
    refine bind_congr fun outcome => ?_
    cases outcome.reached? with
    | none => rfl
    | some s =>
      simp only [Logged.result_bind, Logged.result_silent, ih]
      cases (nextAction c planned).1 <;> rfl

theorem runLiveLogged_result (ctx : Setting) (entries : List Entry) (replans : ℕ) (l : Live)
    (j : Journal) :
    (runLiveLogged ctx entries replans l j).result = runLive ctx entries replans l j := by
  induction replans using Nat.strong_induction_on generalizing ctx l j with
  | _ replans ih =>
    rw [runLiveLogged.eq_def, runLive.eq_def]
    simp only [Logged.result_bind]
    refine bind_congr fun ended => ?_
    obtain ⟨v, j⟩ := ended
    cases v with
    | failed f => rfl
    | found n =>
      simp only [Logged.result_bind, Live.carryOutLogged_result]
      refine bind_congr fun carried => ?_
      obtain ⟨l, failed⟩ := carried
      cases failed with
      | none => rfl
      | some c =>
        simp only [Logged.result_bind, Logged.result_silent]
        refine bind_congr fun blacklist => ?_
        cases replans with
        | zero => simp
        | succ replans => exact ih replans (Nat.lt_succ_self _) _ _ _

theorem runDryLogged_result (ctx : Setting) (entries : List Entry) (l : Live) (j : Journal) :
    (runDryLogged ctx entries l j).result = runDry ctx entries l j := by
  simp only [runDryLogged, runDry, Logged.result_bind]
  refine bind_congr fun ended => ?_
  obtain ⟨v, j⟩ := ended
  cases v <;> rfl

/-- Without its log the logged run is the run. -/
theorem planLogged_result (clock : Clock) (d : Domain) (config : PlannerConfig) (s : State)
    (entries : List Entry) :
    (planLogged clock d config s entries).result = plan clock d config s entries := by
  simp only [planLogged, runLogged, plan, Logged.result_bind, Logged.result_silent, bind_assoc]
  refine bind_congr fun _ => ?_
  cases config.execute with
  | true =>
    simp only [if_true, runLiveLogged_result]
    rfl
  | false =>
    simp only [Bool.false_eq_true, if_false, runDryLogged_result]
    rfl

end Chronoplan
