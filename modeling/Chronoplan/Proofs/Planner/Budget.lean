import Chronoplan.Proofs.Planner.Rounds
import Chronoplan.Proofs.Planner.Steps

/-!
# Budgets of steps

Every step is counted once, except for the one that finds a search ended, and no step reports that
a budget is used up. So a budget of steps only cuts a run short. A run that ends within its budget
is the same under every larger one, and a run that is cut short has taken exactly the steps of its
budget, over all its searches together, and has traced what every longer run traces first.
-/

set_option autoImplicit false

namespace Chronoplan
open Exploration

/-! ### Steps are counted -/

/-- What a step that comes to this has entered into a journal. -/
def Progress.EnteredIn (j : Journal) : Progress → Prop
  | .more s => j.After 1 s.journal
  | .done v j' => v.timedOut = false ∧ ∃ taken ≤ 1, j.After taken j'

namespace Search

theorem step_entered (ctx : Setting) (s : Search) (p : Progress) (h : s.step ctx = .ok p) :
    p.EnteredIn s.journal := by
  cases step_stepped ctx s p h with
  | ended v untimed => exact ⟨untimed, 0, Nat.zero_le 1, .refl _⟩
  | back _ _ _ _ _ j _ _ notes _ => exact s.journal.after_countStep.trans notes.after
  | forward _ front _ _ _ _ j _ _ notes _ =>
    exact s.journal.after_countStep.trans
      ((Journal.after_reachDepth _ front.depth).trans notes.after)
  | fatal _ front _ v j _ _ notes untimed =>
    exact ⟨untimed, 1, le_refl 1, s.journal.after_countStep.trans
      ((Journal.after_reachDepth _ front.depth).trans notes.after)⟩

theorem giveUp_after (clock : Clock) (status : String) (s : Search) :
    s.journal.After 0 (s.giveUp clock status).2 :=
  s.journal.after_log _ _ _ _ _

/-- A run goes on from the journal that it begins with and counts no more steps than it may. -/
theorem run_after (ctx : Setting) (remaining : ℕ) (s : Search) (v : Verdict) (j : Journal)
    (h : run ctx remaining s = .ok (v, j)) : ∃ taken ≤ remaining, s.journal.After taken j := by
  induction remaining generalizing s with
  | zero =>
    cases h
    exact ⟨0, le_refl 0, s.giveUp_after ctx.clock "STEP_LIMIT"⟩
  | succ remaining ih =>
    rw [run] at h
    split at h
    · cases h
      exact ⟨0, Nat.zero_le _, s.giveUp_after ctx.clock "TIME_EXCEEDED"⟩
    · obtain ⟨p, hp, h⟩ := (bind_eq_ok_iff _ _ _).mp h
      have entered := step_entered ctx s p hp
      cases p with
      | more s' =>
        obtain ⟨taken, few, after⟩ := ih s' h
        exact ⟨1 + taken, by omega, Journal.After.trans entered after⟩
      | done v' j' =>
        cases h
        obtain ⟨-, taken, few, after⟩ := entered
        exact ⟨taken, by omega, after⟩

end Search

theorem search_after (ctx : Setting) (root : Node) (j j' : Journal) (v : Verdict)
    (h : search ctx root j = .ok (v, j')) : ∃ taken, j.After taken j' := by
  obtain ⟨taken, -, after⟩ := Search.run_after ctx _ _ v j' h
  exact ⟨taken, after⟩

/-! ### From search to search -/

/-- What becomes of a run that carries its commands out once its search has ended. -/
def afterSearch (ctx : Setting) (entries : List Entry) (replans : ℕ) (l : Live) :
    Verdict × Journal → Except Fault (Except Failure Plan × Journal)
  | (.failed f, j) => .ok (.error f, j)
  | (.found n, j) => do
    match ← Live.carryOut ctx.domain (n.commands.drop l.executed.length)
        (n.schedule.drop l.schedule.length) l with
    | (l, none) => return (.ok { n.toPlan with finalState := l.state }, j)
    | (l, some failed) =>
      let blacklist ← ctx.blacklist.add failed
      match replans with
      | 0 =>
        requireWritable (Value.int ctx.config.budgets.maxReplans).isWritable
        return (.error (replanLimit ctx.config.budgets.maxReplans failed), j.replan failed)
      | replans + 1 => runLive { ctx with blacklist } entries replans l (j.replan failed)

theorem runLive_eq (ctx : Setting) (entries : List Entry) (replans : ℕ) (l : Live) (j : Journal) :
    runLive ctx entries replans l j =
      search ctx (l.root entries) j >>= afterSearch ctx entries replans l := by
  rw [runLive.eq_def]
  refine bind_congr fun ended => ?_
  obtain ⟨v, j⟩ := ended
  cases v <;> rfl

/-- A run goes on from the journal that its first search leaves. -/
theorem afterSearch_after (ctx : Setting) (entries : List Entry) (replans : ℕ) (l : Live)
    (v : Verdict) (j j' : Journal) (result : Except Failure Plan)
    (h : afterSearch ctx entries replans l (v, j) = .ok (result, j')) :
    ∃ taken, j.After taken j' := by
  induction replans using Nat.strong_induction_on generalizing ctx l v j with
  | _ replans ih =>
    cases v with
    | failed f =>
      cases h
      exact ⟨0, .refl _⟩
    | found n =>
      obtain ⟨⟨l', failed⟩, -, h⟩ := (bind_eq_ok_iff _ _ _).mp h
      cases failed with
      | none =>
        cases h
        exact ⟨0, .refl _⟩
      | some c =>
        obtain ⟨blacklist, -, h⟩ := (bind_eq_ok_iff _ _ _).mp h
        cases replans with
        | zero =>
          obtain ⟨-, h⟩ := (requireWritable_bind_iff _ _ _).mp h
          cases h
          exact ⟨0, j.after_replan c⟩
        | succ replans =>
          simp only [runLive_eq] at h
          obtain ⟨⟨v', j₁⟩, hs, h⟩ := (bind_eq_ok_iff _ _ _).mp h
          obtain ⟨taken, searched⟩ := search_after _ _ _ _ _ hs
          obtain ⟨more, later⟩ := ih replans (Nat.lt_succ_self _) _ _ _ _ h
          exact ⟨_, ((j.after_replan c).trans searched).trans later⟩

/-! ### Limits -/

/-- The same configuration with another budget of steps. -/
def PlannerConfig.allow (config : PlannerConfig) (limit : ℤ) : PlannerConfig :=
  { config with budgets := { config.budgets with maxSteps := limit } }

def Setting.allow (ctx : Setting) (limit : ℤ) : Setting :=
  { ctx with config := ctx.config.allow limit }

/-- Whether a run ended because a budget was used up. -/
def outOfBudget : Except Failure Plan → Bool
  | .ok _ => false
  | .error f => f.reason.kind = .timeout

/-- Another journal adds to this one that the budget of steps is used up. -/
structure Journal.CutOff (before : Journal) (limit : ℤ) (j : Journal) : Prop where
  steps : j.stats.steps = limit.toNat
  events : ∃ final : Event, final.kind = "BUDGET_EXCEEDED" ∧ j.trace.events =
    if before.trace.enabled then before.trace.events ++ [final] else before.trace.events

/-- How a limit of steps bears on a computation whose outcomes for all limits are given: either
it cuts the computation short, and the others go on from there, or no larger limit changes the
outcome. -/
inductive CutOrWhole {α : Type} (ranOut : α → Bool) (limit : ℤ) (traced : Bool)
    (outcome : ℤ → Except Fault (α × Journal)) : Prop
  | cut (a : α) (before j : Journal) (short : outcome limit = .ok (a, j)) (out : ranOut a = true)
      (ends : before.CutOff limit j) (enabled : before.trace.enabled = traced)
      (others : ∀ limit' ≥ limit, ∀ a' j', outcome limit' = .ok (a', j') →
        before.trace.events <+: j'.trace.events)
  | whole (same : ∀ limit' ≥ limit, outcome limit' = outcome limit)
      (within : ∀ a j, outcome limit = .ok (a, j) → ranOut a = false)

theorem CutOrWhole.congr {α : Type} {ranOut : α → Bool} {limit : ℤ} {traced : Bool}
    {outcome outcome' : ℤ → Except Fault (α × Journal)}
    (h : CutOrWhole ranOut limit traced outcome')
    (same : ∀ limit' ≥ limit, outcome limit' = outcome' limit') :
    CutOrWhole ranOut limit traced outcome := by
  have here := same limit (le_refl limit)
  cases h with
  | cut a before j short out ends enabled others =>
    refine .cut a before j (here.trans short) out ends enabled ?_
    intro limit' hle a' j' hlong
    exact others limit' hle a' j' ((same limit' hle).symm.trans hlong)
  | whole unchanged within =>
    refine .whole ?_ (by rwa [here])
    intro limit' hle
    rw [same limit' hle, unchanged limit' hle, here]

/-- What comes first and does not depend on the limit has no part in the cut. -/
theorem CutOrWhole.after {α β : Type} {ranOut : β → Bool} {limit : ℤ} {traced : Bool}
    {x : Except Fault α} {next : ℤ → α → Except Fault (β × Journal)}
    (h : ∀ a, x = .ok a → CutOrWhole ranOut limit traced fun n => next n a) :
    CutOrWhole ranOut limit traced fun n => x >>= next n := by
  cases x with
  | error e =>
    refine .whole (fun _ _ => rfl) ?_
    rintro b j ⟨⟩
  | ok a => exact h a rfl

/-- A computation that goes on with what the first part leaves is cut short where its first part
is, and otherwise where the rest is. -/
theorem CutOrWhole.bind {α β : Type} {ranOut : α → Bool} {ranOut' : β → Bool} {limit : ℤ}
    {traced : Bool} {outcome : ℤ → Except Fault (α × Journal)}
    {next : ℤ → α × Journal → Except Fault (β × Journal)}
    (h : CutOrWhole ranOut limit traced outcome)
    (stops : ∀ a j, ranOut a = true → ∃ b, next limit (a, j) = .ok (b, j) ∧ ranOut' b = true)
    (adds : ∀ limit' a j b j', next limit' (a, j) = .ok (b, j') →
      j.trace.events <+: j'.trace.events)
    (rest : ∀ a j, outcome limit = .ok (a, j) → ranOut a = false →
      CutOrWhole ranOut' limit traced fun n => next n (a, j)) :
    CutOrWhole ranOut' limit traced fun n => outcome n >>= next n := by
  cases h with
  | cut a before j short out ends enabled others =>
    obtain ⟨b, hb, out'⟩ := stops a j out
    refine .cut b before j (by rw [short]; exact hb) out' ends enabled ?_
    intro limit' hle b' j' hlong
    obtain ⟨⟨a', j₁⟩, hfirst, hnext⟩ := (bind_eq_ok_iff _ _ _).mp hlong
    exact (others limit' hle a' j₁ hfirst).trans (adds limit' a' j₁ b' j' hnext)
  | whole same within =>
    cases hfirst : outcome limit with
    | error e =>
      refine .whole ?_ (by rw [hfirst]; rintro b j ⟨⟩)
      intro limit' hle
      rw [same limit' hle, hfirst]
      rfl
    | ok first =>
      have reduced : ∀ limit' ≥ limit, (outcome limit' >>= next limit') = next limit' first := by
        intro limit' hle
        rw [same limit' hle, hfirst, ok_bind]
      obtain ⟨a, j⟩ := first
      exact (rest a j hfirst (within a j hfirst)).congr reduced

/-! ### Searches under a limit -/

namespace Search

theorem step_allow (ctx : Setting) (limit : ℤ) (s : Search) :
    s.step (ctx.allow limit) = s.step ctx := rfl

theorem run_allow (ctx : Setting) (limit : ℤ) (remaining : ℕ) (s : Search) :
    run (ctx.allow limit) remaining s = run ctx remaining s := by
  induction remaining generalizing s with
  | zero => rfl
  | succ remaining ih =>
    simp only [run, step_allow, ih]
    rfl

theorem giveUp_cutOff (clock : Clock) (status : String) (s : Search) (limit : ℤ)
    (h : s.journal.stats.steps = limit.toNat) :
    s.journal.CutOff limit (s.giveUp clock status).2 :=
  ⟨h, s.journal.log_events _ _ _ _ _⟩

/-- More steps change nothing, or the run goes on where it is cut short without them. The
induction is on the steps that both may take. -/
theorem run_add (ctx : Setting) (htime : ctx.clock.Within ctx.config.budgets.time) (taken : ℕ)
    (s : Search) :
    (∃ s' : Search, run ctx taken s = .ok (s'.giveUp ctx.clock "STEP_LIMIT") ∧
      s.journal.After taken s'.journal ∧
      ∀ more, run ctx (taken + more) s = run ctx more s') ∨
    (∀ more, run ctx (taken + more) s = run ctx taken s) ∧
      ∀ v j, run ctx taken s = .ok (v, j) → v.timedOut = false := by
  induction taken generalizing s with
  | zero =>
    refine .inl ⟨s, rfl, .refl _, ?_⟩
    intro more
    rw [Nat.zero_add]
  | succ taken ih =>
    have within := not_le.mpr (htime s.journal.stats)
    simp only [Nat.add_right_comm taken 1, run, within, if_false]
    cases hp : s.step ctx with
    | error e => exact .inr ⟨fun _ => rfl, by rintro v j ⟨⟩⟩
    | ok p =>
      have entered := step_entered ctx s p hp
      cases p with
      | done v j =>
        refine .inr ⟨fun _ => rfl, ?_⟩
        rintro v' j' ⟨⟩
        exact entered.1
      | more s₁ =>
        simp only [ok_bind]
        rcases ih s₁ with ⟨s', hcut, after, goesOn⟩ | whole
        · refine .inl ⟨s', hcut, ?_, goesOn⟩
          rw [Nat.add_comm]
          exact Journal.After.trans entered after
        · exact .inr whole

end Search

theorem search_allow (ctx : Setting) (limit : ℤ) (root : Node) (j : Journal) :
    search (ctx.allow limit) root j =
      Search.run ctx (limit - j.stats.steps).toNat (Search.start root j) :=
  Search.run_allow ctx limit _ _

theorem search_cutOrWhole (ctx : Setting) (htime : ctx.clock.Within ctx.config.budgets.time)
    (limit : ℤ) (root : Node) (j : Journal) (hj : j.stats.steps ≤ limit.toNat) :
    CutOrWhole Verdict.timedOut limit j.trace.enabled fun l => search (ctx.allow l) root j := by
  simp only [search_allow]
  have split : ∀ limit' ≥ limit, ∃ more, (limit' - j.stats.steps).toNat =
      (limit - j.stats.steps).toNat + more := by
    intro limit' hle
    exact Nat.exists_eq_add_of_le (by omega)
  rcases Search.run_add ctx htime (limit - j.stats.steps).toNat (Search.start root j) with
    ⟨s, hcut, after, goesOn⟩ | ⟨same, within⟩
  · have used : s.journal.stats.steps = limit.toNat := by
      rw [after.steps]
      simp only [Search.start]
      omega
    refine .cut _ s.journal _ hcut rfl (s.giveUp_cutOff _ _ limit used) after.enabled ?_
    intro limit' hle v j' hlong
    obtain ⟨more, hmore⟩ := split limit' hle
    rw [hmore, goesOn] at hlong
    obtain ⟨_, -, later⟩ := Search.run_after ctx _ _ _ _ hlong
    exact later.events
  · refine .whole ?_ within
    intro limit' hle
    obtain ⟨more, hmore⟩ := split limit' hle
    rw [hmore, same]

/-- A search keeps to its budget, whatever the earlier searches have used of it. -/
theorem search_within (ctx : Setting) (limit : ℤ) (root : Node) (j j' : Journal) (v : Verdict)
    (hj : j.stats.steps ≤ limit.toNat) (h : search (ctx.allow limit) root j = .ok (v, j')) :
    j'.stats.steps ≤ limit.toNat ∧ j'.trace.enabled = j.trace.enabled := by
  rw [search_allow] at h
  obtain ⟨taken, few, after⟩ := Search.run_after ctx _ _ _ _ h
  refine ⟨?_, after.enabled⟩
  rw [after.steps]
  simp only [Search.start]
  omega

/-! ### Runs under a limit -/

theorem runDry_cutOrWhole (ctx : Setting) (htime : ctx.clock.Within ctx.config.budgets.time)
    (limit : ℤ) (entries : List Entry) (l : Live) (j : Journal) (hj : j.stats.steps ≤ limit.toNat) :
    CutOrWhole outOfBudget limit j.trace.enabled fun n => runDry (ctx.allow n) entries l j := by
  refine (search_cutOrWhole ctx htime limit (l.root entries) j hj).bind ?_ ?_ ?_
  · intro v j₁ out
    cases v with
    | found n => cases out
    | failed f => exact ⟨.error f, rfl, out⟩
  · intro _ v j₁ result j' h
    cases v <;> cases h <;> exact List.prefix_refl _
  · intro v j₁ _ within
    refine .whole (fun _ _ => rfl) ?_
    intro result j' h
    cases v <;> cases h
    · rfl
    · exact within

/-- The budget is one for all searches of a run. The induction is on the replans that are left. -/
theorem runLive_cutOrWhole (ctx : Setting) (htime : ctx.clock.Within ctx.config.budgets.time)
    (limit : ℤ) (entries : List Entry) (replans : ℕ) (l : Live) (j : Journal)
    (hj : j.stats.steps ≤ limit.toNat) :
    CutOrWhole outOfBudget limit j.trace.enabled fun n =>
      runLive (ctx.allow n) entries replans l j := by
  induction replans using Nat.strong_induction_on generalizing ctx l j with
  | _ replans ih =>
    simp only [runLive_eq]
    refine (search_cutOrWhole ctx htime limit (l.root entries) j hj).bind ?_ ?_ ?_
    · intro v j₁ out
      cases v with
      | found n => cases out
      | failed f => exact ⟨.error f, rfl, out⟩
    · intro _ v j₁ result j' h
      obtain ⟨_, later⟩ := afterSearch_after _ _ _ _ _ _ _ _ h
      exact later.events
    · intro v j₁ hs within
      obtain ⟨kept, enabled⟩ := search_within ctx limit _ _ _ _ hj hs
      cases v with
      | failed f =>
        refine .whole (fun _ _ => rfl) ?_
        rintro result j' ⟨⟩
        exact within
      | found n =>
        -- the plan is carried out, and its failure entered, without regard to the limit
        change CutOrWhole _ _ _ fun m =>
          Live.carryOut ctx.domain (n.commands.drop l.executed.length)
            (n.schedule.drop l.schedule.length) l >>= _
        refine .after fun carried _ => ?_
        obtain ⟨l', failed⟩ := carried
        cases failed with
        | none =>
          refine .whole (fun _ _ => rfl) ?_
          rintro result j' ⟨⟩
          rfl
        | some c =>
          change CutOrWhole _ _ _ fun m => ctx.blacklist.add c >>= _
          refine .after fun blacklist _ => ?_
          cases replans with
          | zero =>
            refine .whole (fun _ _ => rfl) ?_
            intro result j' h
            obtain ⟨-, h⟩ := (requireWritable_bind_iff _ _ _).mp h
            cases h
            rfl
          | succ replans =>
            have replanned := j₁.after_replan c
            rw [← enabled, ← replanned.enabled]
            refine ih replans (Nat.lt_succ_self _) { ctx with blacklist } htime l' _ ?_
            rw [replanned.steps]
            exact kept

/-! ### Planning -/

def PlanResult.timedOut (r : PlanResult) : Bool := outOfBudget r.plan

/-- Planning with the whole journal of the run. -/
def planJournaled (clock : Clock) (d : Domain) (config : PlannerConfig) (s : State)
    (entries : List Entry) : Except Fault (Except Failure Plan × Journal) := do
  d.validate
  let ctx : Setting := { domain := d, config, blacklist := [], clock }
  let l := Live.start s config.network
  let j := Journal.new config.includeTrace
  if config.execute then runLive ctx entries config.budgets.maxReplans.toNat l j
  else runDry ctx entries l j

theorem plan_eq_journaled (clock : Clock) (d : Domain) (config : PlannerConfig) (s : State)
    (entries : List Entry) : plan clock d config s entries = do
      let (plan, j) ← planJournaled clock d config s entries
      return {
        plan, stats := j.stats, elapsed := clock.total j.stats, events := j.trace.events } := by
  simp only [plan, planJournaled, bind_assoc]
  refine bind_congr fun _ => ?_
  cases config.execute <;> rfl

theorem planJournaled_cutOrWhole (clock : Clock) (d : Domain) (config : PlannerConfig) (s : State)
    (entries : List Entry) (limit : ℤ) (htime : clock.Within config.budgets.time) :
    CutOrWhole outOfBudget limit config.includeTrace fun n =>
      planJournaled clock d (config.allow n) s entries := by
  let ctx : Setting := { domain := d, config, blacklist := [], clock }
  let l := Live.start s config.network
  let j := Journal.new config.includeTrace
  have unused : j.stats.steps ≤ limit.toNat := Nat.zero_le _
  change CutOrWhole _ _ _ fun n => d.validate >>= fun _ =>
    if config.execute then runLive (ctx.allow n) entries config.budgets.maxReplans.toNat l j
    else runDry (ctx.allow n) entries l j
  refine .after fun _ _ => ?_
  cases config.execute with
  | true => exact runLive_cutOrWhole ctx htime limit entries _ l j unused
  | false => exact runDry_cutOrWhole ctx htime limit entries l j unused

/-- As long as the time suffices, a budget of steps is transparent. Unless planning runs out of it,
every larger budget comes to the same, faults included. When it does run out, it has used the budget
up, with the steps of all its searches counted, and all that it traced before the report of that is
what any larger budget traces first. -/
theorem plan_step_budget (clock : Clock) (d : Domain) (config : PlannerConfig) (s : State)
    (entries : List Entry) (limit : ℤ) (htime : clock.Within config.budgets.time) :
    ((∀ r, plan clock d (config.allow limit) s entries = .ok r → r.timedOut = false) →
      ∀ limit' ≥ limit, plan clock d (config.allow limit') s entries =
        plan clock d (config.allow limit) s entries) ∧
    ∀ r, plan clock d (config.allow limit) s entries = .ok r → r.timedOut = true →
      (r.stats.steps : ℤ) = max 0 limit ∧
      ∃ cut final, final.kind = "BUDGET_EXCEEDED" ∧
        r.events = (if config.includeTrace then cut ++ [final] else cut) ∧
        ∀ limit' ≥ limit, ∀ r', plan clock d (config.allow limit') s entries = .ok r' →
          cut <+: r'.events := by
  simp only [plan_eq_journaled]
  cases planJournaled_cutOrWhole clock d config s entries limit htime with
  | cut a before j short out ends enabled others =>
    simp only [short, ok_bind, pure_eq_ok]
    constructor
    · intro untimed
      have untimed := untimed _ rfl
      rw [PlanResult.timedOut, out] at untimed
      cases untimed
    · rintro r ⟨⟩ -
      obtain ⟨steps, final, kind, events⟩ := ends
      refine ⟨?_, before.trace.events, final, kind, ?_, ?_⟩
      · simp only [steps]
        omega
      · rw [events, enabled]
      · intro limit' hle r' hlong
        obtain ⟨⟨a', j'⟩, hrun, hlong⟩ := (bind_eq_ok_iff _ _ _).mp hlong
        cases hlong
        exact others limit' hle a' j' hrun
  | whole same within =>
    constructor
    · intro _ limit' hle
      rw [same limit' hle]
    · intro r hr timed
      obtain ⟨⟨a, j⟩, hrun, hr⟩ := (bind_eq_ok_iff _ _ _).mp hr
      cases hr
      rw [PlanResult.timedOut, within a j hrun] at timed
      cases timed

namespace Delivery

/-- Five steps end within the search after the mailing, and nine suffice. -/
theorem cut_after_mailing : Clock.stopped.Within config.budgets.time ∧
    (∃ r cut final, plan Clock.stopped domain (config.allow 5) State.empty entries = .ok r ∧
      r.timedOut = true ∧ r.stats.replans = 1 ∧ (r.stats.steps : ℤ) = max 0 5 ∧
      final.kind = "BUDGET_EXCEEDED" ∧ r.events = cut ++ [final] ∧
      ∀ limit' ≥ 5, ∀ r',
        plan Clock.stopped domain (config.allow limit') State.empty entries = .ok r' →
          cut <+: r'.events) ∧
    (∃ r, plan Clock.stopped domain (config.allow 9) State.empty entries = .ok r ∧
      r.timedOut = false ∧ ∀ limit' ≥ 9,
        plan Clock.stopped domain (config.allow limit') State.empty entries = .ok r) := by
  have intime := Clock.stopped_within config.budgets.time (by decide)
  have short : (plan Clock.stopped domain (config.allow 5) State.empty entries).toOption.map
      (fun r => (r.timedOut, r.stats.replans)) = some (true, 1) := by decide +kernel
  have long : (plan Clock.stopped domain (config.allow 9) State.empty entries).toOption.map
      PlanResult.timedOut = some false := by decide +kernel
  obtain ⟨r, hr, hread⟩ := Option.map_eq_some_iff.mp short
  obtain ⟨r', hr', within⟩ := Option.map_eq_some_iff.mp long
  obtain ⟨timed, replans⟩ := Prod.mk.inj hread
  have hr := toOption_eq_some_iff.mp hr
  have hr' := toOption_eq_some_iff.mp hr'
  obtain ⟨steps, cut, final, kind, events, others⟩ :=
    (plan_step_budget Clock.stopped domain config State.empty entries 5 intime).2 r hr timed
  have same := (plan_step_budget Clock.stopped domain config State.empty entries 9 intime).1
    (by rw [hr']; rintro _ ⟨⟩; exact within)
  refine ⟨intime, ⟨r, cut, final, hr, timed, replans, steps, kind, events, others⟩, r', hr',
    within, ?_⟩
  intro limit' hle
  rw [same limit' hle, hr']

end Delivery

end Chronoplan
