import Chronoplan.Proofs.Planner.Budget

/-!
# Termination by the limit of depth

A step goes back to a choice point with fewer methods left, or on to a node with less work. Nodes
below a choice point have less work than the node that it was made at, so no search goes on for
ever, whatever its methods answer. Then large budgets of steps are never used up. Refinements are
only made above the limit of depth, so nothing that waits lies deeper.
-/

set_option autoImplicit false

namespace Chronoplan
open Exploration

/-! ### No search goes on for ever -/

namespace Search

def GoesOn (ctx : Setting) (s s' : Search) : Prop := s.step ctx = .ok (.more s')

/-- Every search with this node and these choice points comes to an end. -/
def Ends (ctx : Setting) (node : Option Node) (choices : List ChoicePoint) : Prop :=
  ∀ s : Search, s.node = node → s.choices = choices → Acc (flip (GoesOn ctx)) s

/-- A search comes to an end when whatever its next step makes of it does. -/
theorem ends_of_step (ctx : Setting) (node : Option Node) (choices : List ChoicePoint)
    (back : ∀ p below choices' a, node = none → choices = p :: below →
      Resumed ctx p below a choices' → Ends ctx a.node? choices')
    (forward : ∀ n front rest choices' a, node = some n → n.pending = front :: rest →
      FrontTaken ctx { n with pending := rest } front choices a choices' →
      Ends ctx a.node? choices') : Ends ctx node choices := by
  rintro s rfl rfl
  constructor
  intro s' (h : s.step ctx = .ok (.more s'))
  cases step_stepped ctx s _ h with
  | back p below choices a last j hnode hchoices notes resumed =>
    exact back p below choices a hnode hchoices resumed _ rfl rfl
  | forward n front rest choices a last j hnode hp notes advanced =>
    exact forward n front rest choices a hnode hp advanced _ rfl rfl

theorem ends_without_choices (ctx : Setting) : Ends ctx none [] := by
  refine ends_of_step ctx none [] ?_ ?_
  · rintro p below choices' a - ⟨⟩
  · rintro n front rest choices' a ⟨⟩

/-- A choice point over a stack that comes to an end, when its refinements do. The induction is on
the number of methods that are left. -/
theorem ends_at_choice (ctx : Setting) (p : ChoicePoint) (below : List ChoicePoint)
    (hbelow : Ends ctx none below)
    (hrefined : ∀ expansion choices, Ends ctx none choices →
      Ends ctx (some (refined ctx p.node p.item p.depth expansion)) choices) :
    Ends ctx none (p :: below) := by
  induction hn : p.untried.length using Nat.strong_induction_on generalizing p with
  | _ number ih =>
    subst hn
    refine ends_of_step ctx none (p :: below) ?_ ?_
    · rintro _ _ choices a - ⟨⟩ resumed
      cases resumed with
      | dropped r => exact hbelow
      | taken expansion untried fewer =>
        refine hrefined expansion _ ?_
        exact ih untried.length fewer { p with untried } hrefined rfl
    · rintro n front rest choices a ⟨⟩

/-- A node over a stack that comes to an end. The induction is on the work that is left. -/
theorem ends_at_node (ctx : Setting) (n : Node) (choices : List ChoicePoint)
    (hchoices : Ends ctx none choices) : Ends ctx (some n) choices := by
  induction n using (less_wellFounded ctx.config.budgets.maxDepth).induction
    generalizing choices with
  | _ n ih =>
    refine ends_of_step ctx (some n) choices ?_ ?_
    · rintro p below choices' a ⟨⟩
    · rintro _ front rest choices' a ⟨⟩ hp advanced
      cases advanced with
      | proceed n' ht => exact ih n' (proceed_less ctx n n' front rest hp ht) choices hchoices
      | failed r => exact hchoices
      | fatal r kind => exact hchoices
      | choose item depth methods _ _ ht resumed =>
        have deeper : ∀ expansion choices, Ends ctx none choices →
            Ends ctx (some (refined ctx { n with pending := rest } item depth expansion)) choices :=
          fun expansion choices =>
            ih _ (refined_less ctx n front rest item depth methods expansion hp ht) choices
        cases resumed with
        | dropped r => exact hchoices
        | taken expansion untried fewer =>
          exact deeper expansion _ (ends_at_choice ctx _ choices hchoices deeper)

theorem ends (ctx : Setting) (node : Option Node) (choices : List ChoicePoint) :
    Ends ctx node choices := by
  have stack : Ends ctx none choices := by
    induction choices with
    | nil => exact ends_without_choices ctx
    | cons p below ih =>
      exact ends_at_choice ctx p below ih fun expansion choices => ends_at_node ctx _ choices
  cases node with
  | none => exact stack
  | some n => exact ends_at_node ctx n choices stack

theorem goesOn_wellFounded (ctx : Setting) : WellFounded (flip (GoesOn ctx)) :=
  ⟨fun s => ends ctx s.node s.choices s rfl rfl⟩

/-- Some number of steps suffices for a search. -/
theorem exists_steps (ctx : Setting) (htime : ctx.clock.Within ctx.config.budgets.time) (s : Search) :
    ∃ taken, (∀ more, run ctx (taken + more) s = run ctx taken s) ∧
      ∀ v j, run ctx taken s = .ok (v, j) → v.timedOut = false := by
  induction s using (goesOn_wellFounded ctx).induction with
  | _ s ih =>
    have timely := not_le.mpr (htime s.journal.stats)
    cases hp : s.step ctx with
    | error e =>
      refine ⟨1, fun more => ?_, ?_⟩
      · simp only [Nat.add_comm 1, run, hp, timely, if_false, error_bind]
      · simp [run, hp, timely]
    | ok p =>
      cases p with
      | done v j =>
        have entered := step_entered ctx s _ hp
        refine ⟨1, fun more => ?_, ?_⟩
        · simp only [Nat.add_comm 1, run, hp, timely, if_false, ok_bind]
        · intro v' j' hrun
          simp only [run, hp, timely, if_false, ok_bind] at hrun
          cases hrun
          exact entered.1
      | more s' =>
        obtain ⟨taken, same, within⟩ := ih s' hp
        refine ⟨taken + 1, fun more => ?_, ?_⟩
        · simp only [Nat.add_right_comm taken 1, run, hp, timely, if_false, ok_bind, same]
        · simp only [run, hp, timely, if_false, ok_bind]
          exact within

end Search

/-! ### Large budgets of steps -/

/-- From some limit of steps on no budget is used up, and the outcome is always the same. -/
def Settles {α : Type} (ranOut : α → Bool) (outcome : ℤ → Except Fault (α × Journal)) : Prop :=
  ∃ enough, ∀ limit ≥ enough, outcome limit = outcome enough ∧
    ∀ a j, outcome limit = .ok (a, j) → ranOut a = false

theorem Settles.of_eq {α : Type} {ranOut : α → Bool} {outcome : ℤ → Except Fault (α × Journal)}
    (x : Except Fault (α × Journal)) (same : ∀ limit, outcome limit = x)
    (within : ∀ a j, x = .ok (a, j) → ranOut a = false) : Settles ranOut outcome := by
  refine ⟨0, fun limit _ => ⟨by rw [same, same], fun a j h => ?_⟩⟩
  rw [same] at h
  exact within a j h

/-- What comes first and does not depend on the limit has no part in the limit. -/
theorem Settles.after {α β : Type} {ranOut : β → Bool} {x : Except Fault α}
    {next : ℤ → α → Except Fault (β × Journal)}
    (h : ∀ a, x = .ok a → Settles ranOut fun limit => next limit a) :
    Settles ranOut fun limit => x >>= next limit := by
  cases x with
  | error e => exact .of_eq (.error e) (fun _ => rfl) (by rintro b j ⟨⟩)
  | ok a => exact h a rfl

/-- A limit that is large enough for both parts of a computation is so for the whole. -/
theorem Settles.bind {α β : Type} {ranOut : α → Bool} {ranOut' : β → Bool}
    {outcome : ℤ → Except Fault (α × Journal)} {next : ℤ → α × Journal → Except Fault (β × Journal)}
    (h : Settles ranOut outcome)
    (rest : ∀ a j, ranOut a = false → Settles ranOut' fun limit => next limit (a, j)) :
    Settles ranOut' fun limit => outcome limit >>= next limit := by
  obtain ⟨enough, settled⟩ := h
  cases hfirst : outcome enough with
  | error e =>
    refine ⟨enough, fun limit hle => ?_⟩
    simp only [(settled limit hle).1, hfirst, error_bind, true_and]
    rintro b j ⟨⟩
  | ok first =>
    obtain ⟨a, j⟩ := first
    obtain ⟨more, settled'⟩ := rest a j ((settled enough (le_refl enough)).2 a j hfirst)
    refine ⟨max enough more, fun limit hle => ?_⟩
    have first_at : ∀ limit ≥ max enough more, outcome limit = .ok (a, j) := by
      intro limit hle
      rw [(settled limit (le_of_max_le_left hle)).1, hfirst]
    have same := (settled' (max enough more) (le_max_right _ _)).1
    obtain ⟨here, within⟩ := settled' limit (le_of_max_le_right hle)
    simp only [first_at limit hle, first_at _ (le_refl _), ok_bind]
    exact ⟨here.trans same.symm, within⟩

theorem search_settles (ctx : Setting) (htime : ctx.clock.Within ctx.config.budgets.time)
    (root : Node) (j : Journal) :
    Settles Verdict.timedOut fun limit => search (ctx.allow limit) root j := by
  obtain ⟨taken, same, within⟩ := Search.exists_steps ctx htime (Search.start root j)
  have run_at : ∀ limit ≥ (taken + j.stats.steps : ℤ), search (ctx.allow limit) root j =
      Search.run ctx taken (Search.start root j) := by
    intro limit hle
    obtain ⟨more, hmore⟩ := Nat.exists_eq_add_of_le
      (show taken ≤ (limit - j.stats.steps).toNat by omega)
    rw [search_allow, hmore, same]
  refine ⟨taken + j.stats.steps, fun limit hle => ?_⟩
  simp only [run_at limit hle, run_at _ (le_refl _), true_and]
  exact within

theorem runDry_settles (ctx : Setting) (htime : ctx.clock.Within ctx.config.budgets.time)
    (entries : List Entry) (l : Live) (j : Journal) :
    Settles outOfBudget fun limit => runDry (ctx.allow limit) entries l j := by
  refine (search_settles ctx htime (l.root entries) j).bind ?_
  intro v j' within
  cases v with
  | found n => exact .of_eq _ (fun _ => rfl) (by rintro result j ⟨⟩; rfl)
  | failed f => exact .of_eq _ (fun _ => rfl) (by rintro result j ⟨⟩; exact within)

/-- The induction is on the replans that are left. -/
theorem runLive_settles (ctx : Setting) (htime : ctx.clock.Within ctx.config.budgets.time)
    (entries : List Entry) (replans : ℕ) (l : Live) (j : Journal) :
    Settles outOfBudget fun limit => runLive (ctx.allow limit) entries replans l j := by
  induction replans using Nat.strong_induction_on generalizing ctx l j with
  | _ replans ih =>
    simp only [runLive_eq]
    refine (search_settles ctx htime (l.root entries) j).bind ?_
    intro v j' within
    cases v with
    | failed f => exact .of_eq _ (fun _ => rfl) (by rintro result j ⟨⟩; exact within)
    | found n =>
      -- the plan is carried out, and its failure entered, without regard to the limit
      change Settles _ fun limit => Live.carryOut ctx.domain (n.commands.drop l.executed.length)
        (n.schedule.drop l.schedule.length) l >>= _
      refine .after fun carried _ => ?_
      obtain ⟨l', failed⟩ := carried
      cases failed with
      | none =>
        exact .of_eq (.ok (.ok { n.toPlan with finalState := l'.state }, j')) (fun _ => rfl)
          (by rintro result j ⟨⟩; rfl)
      | some c =>
        change Settles _ fun limit => ctx.blacklist.add c >>= _
        refine .after fun blacklist _ => ?_
        cases replans with
        | zero =>
          change Settles _ fun limit =>
            requireWritable (Value.int ctx.config.budgets.maxReplans).isWritable >>= _
          refine .after fun _ _ => ?_
          exact .of_eq (.ok (.error (replanLimit ctx.config.budgets.maxReplans c), j'.replan c))
            (fun _ => rfl) (by rintro result j ⟨⟩; rfl)
        | succ replans =>
          exact ih replans (Nat.lt_succ_self _) { ctx with blacklist } htime l' (j'.replan c)

theorem planJournaled_settles (clock : Clock) (d : Domain) (config : PlannerConfig) (s : State)
    (entries : List Entry) (htime : clock.Within config.budgets.time) :
    Settles outOfBudget fun limit => planJournaled clock d (config.allow limit) s entries := by
  let ctx : Setting := { domain := d, config, blacklist := [], clock }
  let l := Live.start s config.network
  let j := Journal.new config.includeTrace
  change Settles _ fun limit => d.validate >>= fun _ =>
    if config.execute then runLive (ctx.allow limit) entries config.budgets.maxReplans.toNat l j
    else runDry (ctx.allow limit) entries l j
  refine .after fun _ _ => ?_
  cases config.execute with
  | true => exact runLive_settles ctx htime entries _ l j
  | false => exact runDry_settles ctx htime entries l j

/-! ### Depth -/

/-- Items at most this deep may wait. -/
def Within (limit : ℤ) (ps : List Pending) : Prop := ∀ p ∈ ps, (p.depth : ℤ) ≤ max 0 limit

theorem within_append_iff (limit : ℤ) (ps qs : List Pending) :
    Within limit (ps ++ qs) ↔ Within limit ps ∧ Within limit qs :=
  List.forall_mem_append

theorem expanded_within (ctx : Setting) (limit : ℤ) (item : WorkItem) (expansion : List Entry)
    (depth : ℕ) (h : depth < limit) : Within limit (expanded ctx item expansion depth) := by
  intro p hp
  obtain ⟨e, -, rfl⟩ | ⟨g, rfl⟩ := mem_expanded ctx item expansion depth p hp
  · simp only [Pending.depth]
    omega
  · simp only [Pending.depth]
    omega

/-- What waits at a choice point: the item whose methods are tried, and all that comes after it. -/
def ChoicePoint.pending (p : ChoicePoint) : List Pending :=
  .work (.item p.item) p.depth :: p.node.pending

/-- All that waits in a search, at its node and at its choice points. -/
def Search.pending (s : Search) : List Pending :=
  s.node.toList.flatMap Node.pending ++ s.choices.flatMap ChoicePoint.pending

/-- A choice point whose refinements may wait as well. -/
structure ChoicePoint.Shallow (limit : ℤ) (p : ChoicePoint) : Prop where
  depth : p.depth < limit
  pending : Within limit p.node.pending

def Journal.Shallow (limit : ℤ) (j : Journal) : Prop := (j.stats.maxDepth : ℤ) ≤ max 0 limit

/-- Nothing waits in a search or has been treated by it that lies too deep. -/
structure Search.Shallow (limit : ℤ) (s : Search) : Prop where
  node : ∀ n, s.node = some n → Within limit n.pending
  choices : ∀ p ∈ s.choices, p.Shallow limit
  journal : s.journal.Shallow limit

def Progress.Shallow (limit : ℤ) : Progress → Prop
  | .more s => s.Shallow limit
  | .done _ j => j.Shallow limit

theorem Search.Shallow.within {limit : ℤ} {s : Search} (h : s.Shallow limit) :
    Within limit s.pending := by
  refine (within_append_iff limit _ _).mpr ⟨?_, ?_⟩
  · intro p hp
    obtain ⟨n, hn, hpending⟩ := List.mem_flatMap.mp hp
    exact h.node n (Option.mem_toList.mp hn) p hpending
  · intro p hp
    obtain ⟨point, hpoint, hpending⟩ := List.mem_flatMap.mp hp
    have shallow := h.choices point hpoint
    rcases List.mem_cons.mp hpending with rfl | hlater
    · exact le_max_of_le_right shallow.depth.le
    · exact shallow.pending p hlater

theorem Journal.Notes.shallow {limit : ℤ} {j j' : Journal} (h : j.Notes j')
    (hj : j.Shallow limit) : j'.Shallow limit := by
  rw [Journal.Shallow, h.maxDepth]
  exact hj

theorem Journal.reachDepth_shallow {limit : ℤ} {j : Journal} {depth : ℕ} (hj : j.Shallow limit)
    (hdepth : (depth : ℤ) ≤ max 0 limit) : (j.countStep.reachDepth depth).Shallow limit := by
  simp only [Shallow, reachDepth, countStep] at hj ⊢
  omega

section Steps

variable {ctx : Setting} {limit : ℤ} {below choices : List ChoicePoint} {a : Advance}

theorem Resumed.shallow {p : ChoicePoint} (h : Resumed ctx p below a choices)
    (hp : p.Shallow limit) (hbelow : ∀ q ∈ below, q.Shallow limit) :
    (∀ n, a.node? = some n → Within limit n.pending) ∧ ∀ q ∈ choices, q.Shallow limit := by
  cases h with
  | dropped r => exact ⟨by rintro n ⟨⟩, hbelow⟩
  | taken expansion untried fewer =>
    refine ⟨?_, List.forall_mem_cons.mpr ⟨⟨hp.depth, hp.pending⟩, hbelow⟩⟩
    rintro n ⟨⟩
    exact (within_append_iff limit _ _).mpr
      ⟨expanded_within ctx limit p.item expansion p.depth hp.depth, hp.pending⟩

theorem FrontTaken.shallow {here : Node} {front : Pending}
    (h : FrontTaken ctx here front below a choices) (hlimit : ctx.config.budgets.maxDepth = limit)
    (hhere : Within limit here.pending) (hbelow : ∀ q ∈ below, q.Shallow limit) :
    (∀ n, a.node? = some n → Within limit n.pending) ∧ ∀ q ∈ choices, q.Shallow limit := by
  cases h with
  | proceed n ht =>
    refine ⟨?_, hbelow⟩
    rintro _ ⟨⟩
    rwa [turn_pending ctx here n front ht]
  | failed r => exact ⟨by rintro n ⟨⟩, hbelow⟩
  | fatal r kind => exact ⟨by rintro n ⟨⟩, hbelow⟩
  | choose item depth methods _ _ ht resumed =>
    obtain ⟨-, hdepth⟩ := turn_choose ctx here front item depth methods ht
    rw [hlimit] at hdepth
    exact resumed.shallow ⟨hdepth, hhere⟩ hbelow

theorem Search.step_shallow (s : Search) (p : Progress)
    (hlimit : ctx.config.budgets.maxDepth = limit) (hs : s.Shallow limit)
    (h : s.step ctx = .ok p) : p.Shallow limit := by
  cases step_stepped ctx s p h with
  | ended v untimed => exact hs.journal
  | back point below choices a last j hnode hchoices notes resumed =>
    have shallow := hs.choices
    rw [hchoices] at shallow
    obtain ⟨hpoint, hbelow⟩ := List.forall_mem_cons.mp shallow
    obtain ⟨node, choices⟩ := resumed.shallow hpoint hbelow
    exact ⟨node, choices, Journal.Notes.shallow notes hs.journal⟩
  | forward n front rest choices a last j hnode hp notes advanced =>
    have waiting := hs.node n hnode
    rw [hp] at waiting
    obtain ⟨hfront, hrest⟩ := List.forall_mem_cons.mp waiting
    obtain ⟨node, choices⟩ := advanced.shallow hlimit hrest hs.choices
    exact ⟨node, choices,
      Journal.Notes.shallow notes (Journal.reachDepth_shallow hs.journal hfront)⟩
  | fatal n front rest v j hnode hp notes untimed =>
    have hfront := hs.node n hnode front (by rw [hp]; exact List.mem_cons_self)
    exact Journal.Notes.shallow notes (Journal.reachDepth_shallow hs.journal hfront)

theorem Search.goesOn_shallow (s s' : Search) (hlimit : ctx.config.budgets.maxDepth = limit)
    (hs : s.Shallow limit) (h : Relation.ReflTransGen (GoesOn ctx) s s') : s'.Shallow limit := by
  induction h with
  | refl => exact hs
  | tail _ step ih => exact step_shallow _ _ hlimit ih step

theorem Search.run_shallow (remaining : ℕ) (s : Search) (v : Verdict) (j : Journal)
    (hlimit : ctx.config.budgets.maxDepth = limit) (hs : s.Shallow limit)
    (h : run ctx remaining s = .ok (v, j)) : j.Shallow limit := by
  induction remaining generalizing s with
  | zero =>
    cases h
    exact hs.journal
  | succ remaining ih =>
    rw [run] at h
    split at h
    · cases h
      exact hs.journal
    · obtain ⟨p, hp, h⟩ := (bind_eq_ok_iff _ _ _).mp h
      have shallow := step_shallow s p hlimit hs hp
      cases p with
      | more s' => exact ih s' shallow h
      | done v' j' =>
        cases h
        exact shallow

end Steps

theorem start_shallow (limit : ℤ) (l : Live) (entries : List Entry) (j : Journal)
    (hj : j.Shallow limit) : (Search.start (l.root entries) j).Shallow limit := by
  constructor
  · rintro n ⟨⟩ p hp
    obtain ⟨e, -, rfl⟩ := List.mem_map.mp hp
    exact le_max_left 0 limit
  · rintro p ⟨⟩
  · exact hj

/-- A search that begins with nothing that lies too deep. -/
structure Quest.Shallow (limit : ℤ) (q : Quest) : Prop where
  limited : q.setting.config.budgets.maxDepth = limit
  start : (Search.start q.root q.journal).Shallow limit

/-- A logged computation that begins shallow searches only. -/
structure Logged.Shallow {α : Type} (limit : ℤ) (x : Logged (α × Journal)) : Prop where
  quests : ∀ q, .search q ∈ x.log → q.Shallow limit
  journal : ∀ a j, x.result = .ok (a, j) → j.Shallow limit

namespace Logged

variable {α β : Type} {limit : ℤ}

theorem Shallow.pure (a : α) (j : Journal) (hj : j.Shallow limit) :
    (Pure.pure (a, j) : Logged (α × Journal)).Shallow limit :=
  ⟨by rintro q ⟨⟩, by rintro a' j' ⟨⟩; exact hj⟩

theorem Shallow.after {x : Logged α} {next : α → Logged (β × Journal)}
    (quiet : ∀ q, .search q ∉ x.log) (h : ∀ a, (next a).Shallow limit) :
    (x >>= next).Shallow limit := by
  constructor
  · intro q hq
    obtain hq | ⟨a, -, hq⟩ := (mem_log_bind _ _ _).mp hq
    · exact absurd hq (quiet q)
    · exact (h a).quests q hq
  · intro b j hresult
    rw [result_bind] at hresult
    obtain ⟨a, -, hresult⟩ := (bind_eq_ok_iff _ _ _).mp hresult
    exact (h a).journal b j hresult

theorem Shallow.bind {x : Logged (α × Journal)} {next : α × Journal → Logged (β × Journal)}
    (hx : x.Shallow limit) (h : ∀ a j, j.Shallow limit → (next (a, j)).Shallow limit) :
    (x >>= next).Shallow limit := by
  constructor
  · intro q hq
    obtain hq | ⟨⟨a, j⟩, ha, hq⟩ := (mem_log_bind _ _ _).mp hq
    · exact hx.quests q hq
    · exact (h a j (hx.journal a j ha)).quests q hq
  · intro b j' hresult
    rw [result_bind] at hresult
    obtain ⟨⟨a, j⟩, ha, hresult⟩ := (bind_eq_ok_iff _ _ _).mp hresult
    exact (h a j (hx.journal a j ha)).journal b j' hresult

end Logged

theorem searchLogged_shallow (ctx : Setting) (limit : ℤ) (entries : List Entry) (l : Live)
    (j : Journal) (hlimit : ctx.config.budgets.maxDepth = limit) (hj : j.Shallow limit) :
    (searchLogged ctx (l.root entries) j).Shallow limit := by
  have start := start_shallow limit l entries j hj
  constructor
  · intro q hq
    cases List.mem_singleton.mp hq
    exact ⟨hlimit, start⟩
  · intro v j' hresult
    exact Search.run_shallow _ _ v j' hlimit start hresult

theorem runDryLogged_shallow (ctx : Setting) (limit : ℤ) (entries : List Entry) (l : Live)
    (j : Journal) (hlimit : ctx.config.budgets.maxDepth = limit) (hj : j.Shallow limit) :
    (runDryLogged ctx entries l j).Shallow limit := by
  refine (searchLogged_shallow ctx limit entries l j hlimit hj).bind ?_
  intro v j' hj'
  cases v <;> exact .pure _ j' hj'

/-- The induction is on the replans that are left. -/
theorem runLiveLogged_shallow (ctx : Setting) (limit : ℤ) (entries : List Entry) (replans : ℕ)
    (l : Live) (j : Journal) (hlimit : ctx.config.budgets.maxDepth = limit)
    (hj : j.Shallow limit) : (runLiveLogged ctx entries replans l j).Shallow limit := by
  induction replans using Nat.strong_induction_on generalizing ctx l j with
  | _ replans ih =>
    rw [runLiveLogged.eq_def]
    refine (searchLogged_shallow ctx limit entries l j hlimit hj).bind ?_
    intro v j' hj'
    cases v with
    | failed f => exact .pure _ j' hj'
    | found n =>
      refine .after ?_ ?_
      · intro q hq
        obtain ⟨c, -, hcalled⟩ := Live.called_of_carryOutLogged _ _ _ _ _ hq
        cases hcalled
      · rintro ⟨l', failed⟩
        cases failed with
        | none => exact .pure _ j' hj'
        | some c =>
          refine .after (by rintro q ⟨⟩) ?_
          intro blacklist
          cases replans with
          | zero => exact .after (by rintro q ⟨⟩) fun _ => .pure _ (j'.replan c) hj'
          | succ replans =>
            exact ih replans (Nat.lt_succ_self _) { ctx with blacklist } l' (j'.replan c) hlimit hj'

/-! ### Planning -/

theorem runLogged_shallow (clock : Clock) (d : Domain) (config : PlannerConfig) (s : State)
    (entries : List Entry) :
    (runLogged clock d config s entries).Shallow config.budgets.maxDepth := by
  have hj : (Journal.new config.includeTrace).Shallow config.budgets.maxDepth := le_max_left 0 _
  refine .after (by rintro q ⟨⟩) fun _ => ?_
  cases config.execute with
  | true => exact runLiveLogged_shallow _ _ entries _ _ _ rfl hj
  | false => exact runDryLogged_shallow _ _ entries _ _ rfl hj

/-- The limit of depth alone makes planning end. Unless time runs out, there is a budget of steps
from which on no run is cut short, and all come to the same. In every search of a run nothing
waits that lies deeper than the limit, so no greater depth is counted. -/
theorem plan_ends_by_depth (clock : Clock) (d : Domain) (config : PlannerConfig) (s : State)
    (entries : List Entry) :
    (clock.Within config.budgets.time → ∃ enough, ∀ limit ≥ enough,
      plan clock d (config.allow limit) s entries = plan clock d (config.allow enough) s entries ∧
      ∀ r, plan clock d (config.allow limit) s entries = .ok r → r.timedOut = false) ∧
    (planLogged clock d config s entries).result = plan clock d config s entries ∧
    (∀ q ∈ questsOf (planLogged clock d config s entries).log, ∀ s',
      Relation.ReflTransGen (Search.GoesOn q.setting) (Search.start q.root q.journal) s' →
      ∀ p ∈ s'.pending, (p.depth : ℤ) ≤ max 0 config.budgets.maxDepth) ∧
    ∀ r, plan clock d config s entries = .ok r →
      (r.stats.maxDepth : ℤ) ≤ max 0 config.budgets.maxDepth := by
  obtain ⟨quests, journal⟩ := runLogged_shallow clock d config s entries
  refine ⟨?_, planLogged_result clock d config s entries, ?_, ?_⟩
  · intro htime
    obtain ⟨enough, settled⟩ := planJournaled_settles clock d config s entries htime
    refine ⟨enough, fun limit hle => ?_⟩
    obtain ⟨same, within⟩ := settled limit hle
    simp only [plan_eq_journaled]
    simp only at same
    refine ⟨by rw [same], ?_⟩
    intro r hr
    obtain ⟨⟨p, j⟩, hrun, hr⟩ := (bind_eq_ok_iff _ _ _).mp hr
    cases hr
    exact within p j hrun
  · intro q hq s' hs'
    rw [planLogged_log] at hq
    have shallow := quests q ((mem_questsOf_iff _ q).mp hq)
    exact (Search.goesOn_shallow _ s' shallow.limited shallow.start hs').within
  · intro r hr
    rw [← planLogged_result, planLogged, Logged.result_bind] at hr
    obtain ⟨⟨p, j⟩, hrun, hr⟩ := (bind_eq_ok_iff _ _ _).mp hr
    cases hr
    exact journal p j hrun

/-! ### A spiral

The task refines to itself by either of its methods, and there is no end but the limit of depth. -/

namespace Spiral
open Journey (note command)

def turning (name : String) (serial : ℕ) (before : List Entry) : Callback (List Value) :=
  { name, serial, run := fun _ _ =>
      .ok (.items (before ++ [.item (.task ⟨.str "spin", []⟩)]) false) }

def domain : Domain :=
  { Domain.empty "spiral" with
    commands := [("step", command "step" 0 fun s => .state (note "stepped" s))]
    tasks := [("spin", [turning "outwards" 1 [.item (.command ⟨.str "step", []⟩)],
      turning "inwards" 2 []])] }

def config : PlannerConfig :=
  { PlannerConfig.standard with budgets := { Budgets.standard with maxDepth := 3 } }

def entries : List Entry := [.item (.task ⟨.str "spin", []⟩)]

/-- Eight steps are too few and large budgets are not used up, though the limit is reached. -/
theorem spun_out : Clock.stopped.Within config.budgets.time ∧
    (∃ r, plan Clock.stopped domain (config.allow 8) State.empty entries = .ok r ∧
      r.timedOut = true) ∧
    (∃ enough, ∀ limit ≥ enough, ∀ r,
      plan Clock.stopped domain (config.allow limit) State.empty entries = .ok r →
        r.timedOut = false) ∧
    ∃ r, plan Clock.stopped domain config State.empty entries = .ok r ∧ r.timedOut = false ∧
      r.stats.maxDepth = 3 ∧ (r.stats.maxDepth : ℤ) ≤ max 0 config.budgets.maxDepth := by
  have intime := Clock.stopped_within config.budgets.time (by decide)
  have short : (plan Clock.stopped domain (config.allow 8) State.empty entries).toOption.map
      PlanResult.timedOut = some true := by decide +kernel
  have long : (plan Clock.stopped domain config State.empty entries).toOption.map
      (fun r => (r.timedOut, r.stats.maxDepth)) = some (false, 3) := by decide +kernel
  obtain ⟨r, hr, timed⟩ := Option.map_eq_some_iff.mp short
  obtain ⟨r', hr', hread⟩ := Option.map_eq_some_iff.mp long
  obtain ⟨untimed, deepest⟩ := Prod.mk.inj hread
  have hr' := toOption_eq_some_iff.mp hr'
  obtain ⟨settles, -, -, bounded⟩ := plan_ends_by_depth Clock.stopped domain config State.empty
    entries
  obtain ⟨enough, settled⟩ := settles intime
  exact ⟨intime, ⟨r, toOption_eq_some_iff.mp hr, timed⟩,
    ⟨enough, fun limit hle => (settled limit hle).2⟩, r', hr', untimed, deepest, bounded r' hr'⟩

end Spiral

end Chronoplan
