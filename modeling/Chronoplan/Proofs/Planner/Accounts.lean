import Chronoplan.Proofs.Planner.Budget

/-!
# The trace and the counts

A run keeps two accounts of itself, a trace and counts. The kinds of the events in a trace follow
a small grammar, and the counts come with it: a refused command and the backtrack for it stand
together, and so do the backtrack at the limit and its warning. Every step of a search enters a
passage of the grammar, so a run leaves a trace that agrees with its counts and its failure.
-/

set_option autoImplicit false

namespace Chronoplan
open Exploration

/-! ### The grammar of a trace -/

/-- The kinds of events that are counted or stand in a fixed place. -/
def accountedKinds : List String :=
  ["BACKTRACK", "COMMAND_APPLIED", "COMMAND_FAILED", "REPLAN", "SOFT_BUDGET_BACKTRACKS"]

/-- What is entered for the backtrack of the given number, with the refusal of a command in front
of it and the warning of the limit behind it. -/
def setbackKinds (limit : ℤ) (number : ℕ) (refused : Bool) : List String :=
  (if refused then ["COMMAND_FAILED"] else []) ++
    "BACKTRACK" :: if (number : ℤ) = max 1 limit then ["SOFT_BUDGET_BACKTRACKS"] else []

/-- The kinds of the events in a trace, with the numbers of backtracks, of applied commands and of
replans. -/
inductive Account (limit : ℤ) : List String → ℕ → ℕ → ℕ → Prop
  | empty : Account limit [] 0 0 0
  | remark (kinds : List String) (b a r : ℕ) (kind : String) (quiet : kind ∉ accountedKinds) :
    Account limit kinds b a r → Account limit (kinds ++ [kind]) b a r
  | applied (kinds : List String) (b a r : ℕ) :
    Account limit kinds b a r → Account limit (kinds ++ ["COMMAND_APPLIED"]) b (a + 1) r
  | replanned (kinds : List String) (b a r : ℕ) :
    Account limit kinds b a r → Account limit (kinds ++ ["REPLAN"]) b a (r + 1)
  | setback (kinds : List String) (b a r : ℕ) (refused : Bool) :
    Account limit kinds b a r →
      Account limit (kinds ++ setbackKinds limit (b + 1) refused) (b + 1) a r

/-- Wherever the kind stands, what comes before it and after it is as told. -/
def Stands (kind : String) (told : List String → List String → Prop) (kinds : List String) : Prop :=
  ∀ before after, kinds = before ++ kind :: after → told before after

/-- In a list that goes on, the kind stands in the list or in what is new. -/
theorem Stands.append {kind : String} {told : List String → List String → Prop}
    {kinds new : List String} (h : Stands kind told kinds)
    (later : ∀ before after, told before after → told before (after ++ new))
    (here : ∀ front after, new = front ++ kind :: after → told (kinds ++ front) after) :
    Stands kind told (kinds ++ new) := by
  intro before after whole
  obtain ⟨front, rfl, hnew⟩ | ⟨rest, rfl, hafter⟩ := List.append_eq_append_iff.mp whole
  · exact here front after hnew
  · cases rest with
    | nil => simpa using here [] after hafter.symm
    | cons _ rest =>
      cases hafter
      exact later before rest (h before rest rfl)

/-- A refusal is followed at once by the backtrack. -/
theorem setbackKinds_refused (limit : ℤ) (number : ℕ) (refused : Bool) (front after : List String)
    (h : front ++ "COMMAND_FAILED" :: after = setbackKinds limit number refused) :
    after.head? = some "BACKTRACK" := by
  by_cases reached : (number : ℤ) = max 1 limit <;>
    simp only [setbackKinds, reached, if_true, if_false] at h <;>
    cases refused <;> rcases front with _ | ⟨_, _ | ⟨_, _ | ⟨_, _⟩⟩⟩ <;> simp_all

/-- A warning comes right after the backtrack whose number is the limit. -/
theorem setbackKinds_warned (limit : ℤ) (number : ℕ) (refused : Bool) (front after : List String)
    (h : front ++ "SOFT_BUDGET_BACKTRACKS" :: after = setbackKinds limit number refused) :
    (number : ℤ) = max 1 limit ∧ front.getLast? = some "BACKTRACK" ∧
      front.count "BACKTRACK" = 1 := by
  by_cases reached : (number : ℤ) = max 1 limit <;>
    simp only [setbackKinds, reached, if_true, if_false] at h <;>
    cases refused <;> rcases front with _ | ⟨_, _ | ⟨_, _ | ⟨_, _⟩⟩⟩ <;> simp_all

namespace Account

variable {limit : ℤ} {kinds : List String} {b a r : ℕ}

/-- The numbers are those of the events of each kind, and there is one warning from the limit on. -/
theorem counts (h : Account limit kinds b a r) :
    kinds.count "BACKTRACK" = b ∧ kinds.count "COMMAND_APPLIED" = a ∧ kinds.count "REPLAN" = r ∧
      kinds.count "SOFT_BUDGET_BACKTRACKS" = if max 1 limit ≤ b then 1 else 0 := by
  induction h with
  | empty =>
    simp
  | remark kinds b a r kind quiet _ ih =>
    have other : ∀ k ∈ accountedKinds, kind ≠ k := fun k hk same => quiet (same ▸ hk)
    simp only [accountedKinds, List.forall_mem_cons] at other
    simpa [List.count_singleton, other] using ih
  | applied kinds b a r _ ih => simpa [List.count_singleton] using ih
  | replanned kinds b a r _ ih => simpa [List.count_singleton] using ih
  | setback kinds b a r refused _ ih =>
    obtain ⟨hb, ha, hr, hw⟩ := ih
    by_cases reached : ((b + 1 : ℕ) : ℤ) = max 1 limit
    · have below : ¬ max 1 limit ≤ (b : ℤ) := by omega
      have above : max 1 limit ≤ ((b + 1 : ℕ) : ℤ) := by omega
      rw [if_neg below] at hw
      rw [if_pos above, setbackKinds, if_pos reached]
      cases refused <;> simp [hb, ha, hr, hw]
    · have same : max 1 limit ≤ ((b + 1 : ℕ) : ℤ) ↔ max 1 limit ≤ (b : ℤ) := by omega
      rw [if_congr same rfl rfl, setbackKinds, if_neg reached]
      cases refused <;> simp [hb, ha, hr, hw]

/-- Refusals and warnings are only entered together with a backtrack. -/
theorem stands (h : Account limit kinds b a r) (kind : String)
    (told : List String → List String → Prop)
    (hkind : kind ∈ ["COMMAND_FAILED", "SOFT_BUDGET_BACKTRACKS"])
    (later : ∀ before after new, told before after → told before (after ++ new))
    (here : ∀ kinds b a r refused front after, Account limit kinds b a r →
      setbackKinds limit (b + 1) refused = front ++ kind :: after → told (kinds ++ front) after) :
    Stands kind told kinds := by
  have alone : ∀ (kinds : List String) (new : String), Stands kind told kinds → new ≠ kind →
      Stands kind told (kinds ++ [new]) := by
    intro kinds new ih other
    refine ih.append (fun before after => later before after _) ?_
    intro front after hnew
    exact absurd (List.mem_singleton.mp (hnew ▸ by simp : kind ∈ [new])).symm other
  have rare : kind ∈ accountedKinds ∧ "COMMAND_APPLIED" ≠ kind ∧ "REPLAN" ≠ kind := by
    simp only [List.mem_cons, List.not_mem_nil, or_false] at hkind
    rcases hkind with rfl | rfl <;> decide
  induction h with
  | empty =>
    intro before after whole
    exact absurd whole (by simp)
  | remark kinds b a r new quiet _ ih => exact alone kinds new ih fun same => quiet (same ▸ rare.1)
  | applied kinds b a r _ ih => exact alone kinds _ ih rare.2.1
  | replanned kinds b a r _ ih => exact alone kinds _ ih rare.2.2
  | setback kinds b a r refused h ih =>
    exact ih.append (fun before after => later before after _)
      fun front after hnew => here kinds b a r refused front after h hnew

theorem stands_refusal (h : Account limit kinds b a r) :
    Stands "COMMAND_FAILED" (fun _ after => after.head? = some "BACKTRACK") kinds := by
  refine h.stands _ _ (by simp) ?_ ?_
  · intro _ after new followed
    rw [List.head?_append, followed, Option.some_or]
  · intro kinds b a r refused front after _ hnew
    exact setbackKinds_refused limit (b + 1) refused front after hnew.symm

theorem stands_warning (h : Account limit kinds b a r) :
    Stands "SOFT_BUDGET_BACKTRACKS" (fun before _ => before.getLast? = some "BACKTRACK" ∧
      (before.count "BACKTRACK" : ℤ) = max 1 limit) kinds := by
  refine h.stands _ _ (by simp) (fun _ _ _ told => told) ?_
  intro kinds b a r refused front after h hnew
  obtain ⟨reached, last, once⟩ := setbackKinds_warned limit (b + 1) refused front after hnew.symm
  constructor
  · rw [List.getLast?_append, last, Option.some_or]
  · rw [List.count_append, h.counts.1, once]
    exact reached

end Account

/-! ### Journals -/

/-- The latest backtrack was for the reason. -/
def Blames (events : List Event) (r : Reason) : Prop :=
  ∃ e, (events.filter fun e => e.kind == "BACKTRACK").getLast? = some e ∧
    e.data.field? "kind" = some (.str r.kind.name) ∧
    e.data.field? "reason" = some (.str r.message)

theorem Blames.append {events new : List Event} {r : Reason} (h : Blames events r)
    (other : "BACKTRACK" ∉ new.map Event.kind) : Blames (events ++ new) r := by
  obtain ⟨e, last, fields⟩ := h
  have none : new.filter (fun e => e.kind == "BACKTRACK") = [] := by
    rw [List.filter_eq_nil_iff]
    intro e' he' same
    exact other (List.mem_map.mpr ⟨e', he', by simpa using same⟩)
  exact ⟨e, by rw [List.filter_append, none, List.append_nil, last], fields⟩

theorem Blames.prepend {new : List Event} {r : Reason} (events : List Event) (h : Blames new r) :
    Blames (events ++ new) r := by
  obtain ⟨e, last, fields⟩ := h
  exact ⟨e, by rw [List.filter_append, List.getLast?_append, last, Option.some_or], fields⟩

def Journal.kinds (j : Journal) : List String := j.trace.events.map Event.kind

/-- The trace agrees with the counts, with what has been warned of and with the latest failure. -/
structure Journal.Sound (limit : ℤ) (last : Option Reason) (j : Journal) : Prop where
  enabled : j.trace.enabled = true
  account : Account limit j.kinds j.stats.backtracks j.stats.applied j.stats.replans
  warned : j.warned = true ↔ max 1 limit ≤ j.stats.backtracks
  within : "BUDGET_EXCEEDED" ∉ j.kinds
  blamed : ∀ r, last = some r → Blames j.trace.events r

namespace Journal

variable {limit : ℤ} {last : Option Reason} {j j' : Journal}

theorem kinds_log (j : Journal) (on : j.trace.enabled = true) (kind : String)
    (data : List (String × Value)) (item : Option String) (depth : ℕ) (method : Option String) :
    (j.log kind data item depth method).kinds = j.kinds ++ [kind] := by
  simp [kinds, log, j.trace.events_log _ on]

theorem sound_new (limit : ℤ) : (new true).Sound limit none := by
  refine ⟨rfl, .empty, ?_, List.not_mem_nil, by rintro _ ⟨⟩⟩
  simp only [new, Stats.zero, Bool.false_eq_true, false_iff, not_le]
  omega

theorem Sound.forget (h : j.Sound limit last) : j.Sound limit none :=
  { h with blamed := by rintro _ ⟨⟩ }

/-- What is entered beside backtracks needs an account of its own only. -/
theorem Sound.log (h : j.Sound limit last) (stats : Stats) (kind : String)
    (data : List (String × Value)) (item : Option String) (depth : ℕ) (method : Option String)
    (account : Account limit (j.kinds ++ [kind]) stats.backtracks stats.applied stats.replans)
    (same : stats.backtracks = j.stats.backtracks)
    (other : kind ∉ ["BACKTRACK", "BUDGET_EXCEEDED"]) :
    (Journal.log { j with stats } kind data item depth method).Sound limit last := by
  simp only [List.mem_cons, List.not_mem_nil, or_false, not_or] at other
  have kinds := kinds_log { j with stats } h.enabled kind data item depth method
  obtain ⟨e, he, events⟩ := log_events { j with stats } kind data item depth method
  constructor
  · exact (after_log { j with stats } kind data item depth method).enabled.trans h.enabled
  · rw [kinds]
    exact account
  · change j.warned = true ↔ max 1 limit ≤ (stats.backtracks : ℤ)
    rw [same]
    exact h.warned
  · rw [kinds, List.mem_append, List.mem_singleton, not_or]
    exact ⟨h.within, Ne.symm other.2⟩
  · intro r hr
    rw [events, if_pos h.enabled]
    exact (h.blamed r hr).append (by simpa [he] using Ne.symm other.1)

theorem Sound.remark (h : j.Sound limit last) (remark : j.Remark j') : j'.Sound limit last := by
  cases remark with
  | applied c depth =>
    exact h.log { j.stats with applied := j.stats.applied + 1 } _ _ _ _ _
      (.applied _ _ _ _ h.account) rfl (by decide)
  | _ => exact h.log j.stats _ _ _ _ _ (.remark _ _ _ _ _ (by decide) h.account) rfl (by decide)

theorem Sound.remarks (h : j.Sound limit last) (remarks : j.Remarks j') : j'.Sound limit last := by
  induction remarks with
  | refl => exact h
  | tail _ remark ih => exact ih.remark remark

theorem Sound.replan (h : j.Sound limit last) (failed : Call) :
    (j.replan failed).Sound limit last :=
  h.log { j.stats with replans := j.stats.replans + 1 } _ _ _ _ _ (.replanned _ _ _ _ h.account)
    rfl (by decide)

/-- A warning is entered once, when the limit is reached. -/
theorem warn_told (j : Journal) (on : j.trace.enabled = true) (limit : ℤ) :
    (j.warn limit).warned = (j.warned || decide (limit ≤ j.stats.backtracks)) ∧
    ∃ told : List Event, (j.warn limit).trace.events = j.trace.events ++ told ∧
      told.map Event.kind = if limit ≤ j.stats.backtracks ∧ j.warned = false
        then ["SOFT_BUDGET_BACKTRACKS"] else [] := by
  unfold warn
  split
  · next reached =>
    obtain ⟨e, he, events⟩ := log_events { j with warned := true } "SOFT_BUDGET_BACKTRACKS"
      [("count", .int j.stats.backtracks), ("limit", .int limit)] none 0 none
    rw [if_pos on] at events
    exact ⟨by simp [Journal.log, reached.1], [e], events, by simp [he]⟩
  · next before =>
    refine ⟨?_, [], (List.append_nil _).symm, rfl⟩
    cases hw : j.warned <;> simp_all

theorem backtrack_stats (j : Journal) (limit : ℤ) (r : Reason) (p : Pending) :
    (j.backtrack limit r p).stats = { j.stats with backtracks := j.stats.backtracks + 1 } :=
  warn_stats _ limit

/-- A backtrack is entered with its reason, and with a warning when its number is the limit. -/
theorem backtrack_told (j : Journal) (on : j.trace.enabled = true) (limit : ℤ)
    (warned : j.warned = true ↔ max 1 limit ≤ j.stats.backtracks) (r : Reason) (p : Pending) :
    ((j.backtrack limit r p).warned = true ↔ max 1 limit ≤ ((j.stats.backtracks + 1 : ℕ) : ℤ)) ∧
    ∃ told : List Event, (j.backtrack limit r p).trace.events = j.trace.events ++ told ∧
      told.map Event.kind = setbackKinds limit (j.stats.backtracks + 1) false ∧
      Blames told r := by
  let e : Event := {
    kind := "BACKTRACK"
    data := .dict [(.str "kind", .str r.kind.name), (.str "reason", .str r.message),
      (.str "backtrack_count", .int (j.stats.backtracks + 1 : ℕ))]
    item := some p.text
    method := none
    depth := p.depth }
  let entered : Journal := {
    j with
    stats := { j.stats with backtracks := j.stats.backtracks + 1 }
    trace := j.trace.log e }
  have here : j.backtrack limit r p = entered.warn limit := rfl
  have events : entered.trace.events = j.trace.events ++ [e] := j.trace.events_log e on
  have still : entered.trace.enabled = true := by
    simp [entered, Trace.log, on]
  obtain ⟨warns, told, later, kinds⟩ := entered.warn_told still limit
  rw [here, warns, later, events, List.append_assoc]
  refine ⟨?_, [e] ++ told, rfl, ?_, ?_⟩
  · simp only [entered, Bool.or_eq_true, decide_eq_true_eq, warned]
    omega
  · rw [List.map_append, kinds]
    simp only [setbackKinds, entered, Bool.false_eq_true, if_false, List.nil_append, List.map_cons,
      List.map_nil, List.singleton_append, List.cons.injEq]
    refine ⟨rfl, if_congr ?_ rfl rfl⟩
    rw [← Bool.not_eq_true, warned]
    omega
  · refine Blames.append ?_ ?_
    · refine ⟨e, by simp [e], ?_, ?_⟩ <;>
        simp [e, Value.field?, Value.lookup, Table.find?]
    · rw [kinds]
      split <;> simp

theorem setbackKinds_of_refused (limit : ℤ) (number : ℕ) (refused : Bool) :
    (if refused then ["COMMAND_FAILED"] else []) ++ setbackKinds limit number false =
      setbackKinds limit number refused := by
  simp [setbackKinds]

/-- A failure enters its refusal, if there is one, and its backtrack next to each other. -/
theorem Sound.setback {failed : Reason → Prop} (h : j.Sound limit last)
    (tells : j.Tells failed j') (r : Reason) (p : Pending) :
    (j'.backtrack limit r p).Sound limit (some r) := by
  have told : ∃ (kinds : List String) (refused : Bool),
      j'.kinds = kinds ++ (if refused then ["COMMAND_FAILED"] else []) ∧
      Account limit kinds j'.stats.backtracks j'.stats.applied j'.stats.replans ∧
      "BUDGET_EXCEEDED" ∉ kinds ∧ j'.trace.enabled = true ∧
      (j'.warned = true ↔ max 1 limit ≤ j'.stats.backtracks) := by
    cases tells with
    | remarks _ remarks =>
      have h' := h.remarks remarks
      exact ⟨j'.kinds, false, (List.append_nil _).symm, h'.account, h'.within, h'.enabled,
        h'.warned⟩
    | refused r hr c reason depth =>
      exact ⟨j.kinds, true, j.kinds_log h.enabled _ _ _ _ _, h.account, h.within,
        (j.after_log _ _ _ _ _).enabled.trans h.enabled, h.warned⟩
  obtain ⟨kinds, refused, hkinds, account, within, on, warned⟩ := told
  obtain ⟨warned', new, events, hnew, blames⟩ := j'.backtrack_told on limit warned r p
  have whole : (j'.backtrack limit r p).kinds =
      kinds ++ setbackKinds limit (j'.stats.backtracks + 1) refused := by
    rw [Journal.kinds, events, List.map_append, hnew,
      ← setbackKinds_of_refused limit _ refused, ← List.append_assoc, ← hkinds, Journal.kinds]
  constructor
  · exact (j'.after_backtrack limit r p).enabled.trans on
  · rw [whole, backtrack_stats]
    exact .setback _ _ _ _ refused account
  · rw [backtrack_stats]
    exact warned'
  · rw [whole, List.mem_append, not_or]
    refine ⟨within, ?_⟩
    simp [setbackKinds]
  · rintro _ ⟨⟩
    rw [events]
    exact blames.prepend _

end Journal

/-! ### Searches -/

/-- How a search or a run may end: with a plan, or with a failure that its trace accounts for. -/
inductive Journal.Ends (b : Budgets) : Journal → Option Failure → Prop
  | found (j : Journal) (last : Option Reason) (h : j.Sound b.maxBacktracks last) : Ends b j none
  | fatal (j : Journal) (last : Option Reason) (r : Reason) (h : j.Sound b.maxBacktracks last)
    (kind : r.kind = .unknownMethod) : Ends b j (some ⟨r, []⟩)
  | exhausted (j : Journal) (r cause : Reason) (h : j.Sound b.maxBacktracks (some cause))
    (kind : r.kind = .searchExhausted) : Ends b j (some ⟨r, [cause]⟩)
  | replans (j : Journal) (last : Option Reason) (failed : Call)
    (h : j.Sound b.maxBacktracks last) : Ends b j (some (replanLimit b.maxReplans failed))
  | cut (j : Journal) (last : Option Reason) (data : List (String × Value)) (r : Reason)
    (h : j.Sound b.maxBacktracks last) (kind : r.kind = .timeout) :
    Ends b (j.log "BUDGET_EXCEEDED" data none 0 none) (some ⟨r, []⟩)

def Verdict.failure? : Verdict → Option Failure
  | .found _ => none
  | .failed f => some f

/-- The journal of a search is sound, and a search that goes back does so after a failure. -/
structure Search.Sound (limit : ℤ) (s : Search) : Prop where
  journal : s.journal.Sound limit s.lastFailure
  failed : s.node = none → s.lastFailure.isSome

/-- What a step keeps, and what it ends with. -/
def Progress.Sound (b : Budgets) : Progress → Prop
  | .more s => s.Sound b.maxBacktracks
  | .done v j => j.Ends b v.failure?

namespace Search

theorem stepBack_sound (ctx : Setting) (s : Search) (p : Progress) (hnode : s.node = none)
    (h : s.stepBack ctx = .ok p) (sound : s.Sound ctx.config.budgets.maxBacktracks) :
    p.Sound ctx.config.budgets := by
  obtain ⟨cause, last⟩ := Option.isSome_iff_exists.mp (sound.failed hnode)
  have journal := sound.journal
  rw [last] at journal
  unfold stepBack at h
  cases hc : s.choices with
  | nil =>
    rw [hc] at h
    cases h
    rw [last]
    exact .exhausted _ _ cause journal rfl
  | cons point below =>
    rw [hc] at h
    obtain ⟨⟨a, choices, j⟩, hresume, h⟩ := (bind_eq_ok_iff _ _ _).mp h
    obtain ⟨remarks, resumed⟩ := resume_resumed _ _ _ _ _ _ _ hresume
    have counted : s.journal.countStep.Sound ctx.config.budgets.maxBacktracks (some cause) :=
      { journal with }
    have later := counted.remarks remarks
    cases resumed with
    | dropped r =>
      cases h
      exact ⟨by simpa [last] using later, by simp [last]⟩
    | taken expansion untried fewer =>
      cases h
      exact ⟨by simpa [last] using later, by rintro ⟨⟩⟩

theorem stepForward_sound (ctx : Setting) (s : Search) (n : Node) (p : Progress)
    (h : s.stepForward ctx n = .ok p) (sound : s.Sound ctx.config.budgets.maxBacktracks) :
    p.Sound ctx.config.budgets := by
  have journal := sound.journal
  unfold stepForward at h
  cases hp : n.pending with
  | nil =>
    rw [hp] at h
    cases h
    exact .found _ _ journal
  | cons front rest =>
    rw [hp] at h
    obtain ⟨⟨a, choices, j⟩, hadvance, h⟩ := (bind_eq_ok_iff _ _ _).mp h
    obtain ⟨tells, advanced⟩ := advance_frontTaken _ _ _ _ _ _ _ _ _ hadvance
    have here : (s.journal.countStep.reachDepth front.depth).Sound
        ctx.config.budgets.maxBacktracks s.lastFailure := { journal with }
    cases a with
    | node n' =>
      cases h
      exact ⟨here.remarks (tells.unfailing (by rintro r ⟨⟩)), by rintro ⟨⟩⟩
    | failed r =>
      cases h
      exact ⟨here.setback tells r front, fun _ => rfl⟩
    | fatal r =>
      cases h
      cases advanced with
      | fatal _ kind => exact .fatal _ _ r (here.remarks (tells.unfailing (by rintro r ⟨⟩))) kind
      | choose _ _ _ _ _ _ resumed => cases resumed

theorem step_sound (ctx : Setting) (s : Search) (p : Progress) (h : s.step ctx = .ok p)
    (sound : s.Sound ctx.config.budgets.maxBacktracks) : p.Sound ctx.config.budgets := by
  unfold step at h
  split at h
  · next hnode => exact stepBack_sound ctx s p hnode h sound
  · next n hnode => exact stepForward_sound ctx s n p h sound

theorem giveUp_ends (b : Budgets) (clock : Clock) (status : String) (s : Search)
    (sound : s.Sound b.maxBacktracks) :
    (s.giveUp clock status).2.Ends b (s.giveUp clock status).1.failure? :=
  .cut _ _ _ _ sound.journal rfl

/-- The induction is on the steps that remain. -/
theorem run_ends (ctx : Setting) (remaining : ℕ) (s : Search) (v : Verdict) (j : Journal)
    (h : run ctx remaining s = .ok (v, j)) (sound : s.Sound ctx.config.budgets.maxBacktracks) :
    j.Ends ctx.config.budgets v.failure? := by
  induction remaining generalizing s with
  | zero =>
    cases h
    exact giveUp_ends _ ctx.clock "STEP_LIMIT" s sound
  | succ remaining ih =>
    rw [run] at h
    split at h
    · cases h
      exact giveUp_ends _ ctx.clock "TIME_EXCEEDED" s sound
    · obtain ⟨p, hp, h⟩ := (bind_eq_ok_iff _ _ _).mp h
      have kept := step_sound ctx s p hp sound
      cases p with
      | more s' => exact ih s' h kept
      | done v' j' =>
        cases h
        exact kept

end Search

theorem search_ends (ctx : Setting) (root : Node) (j j' : Journal) (v : Verdict)
    (last : Option Reason) (sound : j.Sound ctx.config.budgets.maxBacktracks last)
    (h : search ctx root j = .ok (v, j')) : j'.Ends ctx.config.budgets v.failure? :=
  Search.run_ends ctx _ _ v j' h ⟨sound.forget, by rintro ⟨⟩⟩

/-! ### Runs -/

def failure? : Except Failure Plan → Option Failure
  | .ok _ => none
  | .error f => some f

theorem runDry_ends (ctx : Setting) (entries : List Entry) (l : Live) (j j' : Journal)
    (last : Option Reason) (result : Except Failure Plan)
    (sound : j.Sound ctx.config.budgets.maxBacktracks last)
    (h : runDry ctx entries l j = .ok (result, j')) :
    j'.Ends ctx.config.budgets (failure? result) := by
  obtain ⟨⟨v, j₁⟩, hs, h⟩ := (bind_eq_ok_iff _ _ _).mp h
  have ends := search_ends ctx _ j j₁ v last sound hs
  cases v <;> cases h <;> exact ends

/-- The induction is on the replans that are left. -/
theorem runLive_ends (ctx : Setting) (entries : List Entry) (replans : ℕ) (l : Live)
    (j j' : Journal) (last : Option Reason) (result : Except Failure Plan)
    (sound : j.Sound ctx.config.budgets.maxBacktracks last)
    (h : runLive ctx entries replans l j = .ok (result, j')) :
    j'.Ends ctx.config.budgets (failure? result) := by
  induction replans using Nat.strong_induction_on generalizing ctx l j last with
  | _ replans ih =>
    rw [runLive_eq] at h
    obtain ⟨⟨v, j₁⟩, hs, h⟩ := (bind_eq_ok_iff _ _ _).mp h
    have ends := search_ends ctx _ j j₁ v last sound hs
    cases v with
    | failed f =>
      cases h
      exact ends
    | found n =>
      obtain ⟨⟨l', failed⟩, -, h⟩ := (bind_eq_ok_iff _ _ _).mp h
      cases failed with
      | none =>
        cases h
        exact ends
      | some c =>
        obtain ⟨blacklist, -, h⟩ := (bind_eq_ok_iff _ _ _).mp h
        cases ends with
        | found _ last₁ searched =>
          cases replans with
          | zero =>
            obtain ⟨-, h⟩ := (requireWritable_bind_iff _ _ _).mp h
            cases h
            exact .replans _ _ c (searched.replan c)
          | succ replans =>
            exact ih replans (Nat.lt_succ_self _) { ctx with blacklist } l' _ _
              (searched.replan c) h

theorem planJournaled_ends (clock : Clock) (d : Domain) (config : PlannerConfig) (s : State)
    (entries : List Entry) (result : Except Failure Plan) (j : Journal)
    (traced : config.includeTrace = true)
    (h : planJournaled clock d config s entries = .ok (result, j)) :
    j.Ends config.budgets (failure? result) := by
  have sound := Journal.sound_new config.budgets.maxBacktracks
  obtain ⟨_, -, h⟩ := (bind_eq_ok_iff _ _ _).mp h
  rw [traced] at h
  split at h
  · exact runLive_ends ⟨d, config, [], clock⟩ entries _ _ _ j none result sound h
  · exact runDry_ends ⟨d, config, [], clock⟩ entries _ _ j none result sound h

/-! ### Results -/

namespace Journal.Ends

variable {b : Budgets} {j : Journal} {ended : Option Failure}

theorem account (h : j.Ends b ended) :
    Account b.maxBacktracks j.kinds j.stats.backtracks j.stats.applied j.stats.replans := by
  cases h with
  | cut j _ data _ h =>
    rw [j.kinds_log h.enabled]
    exact .remark _ _ _ _ _ (by decide) h.account
  | found _ _ h => exact h.account
  | fatal _ _ _ h => exact h.account
  | exhausted _ _ _ h => exact h.account
  | replans _ _ _ h => exact h.account

/-- A budget that is used up is entered at the end, and only then. -/
theorem exceeded (h : j.Ends b ended) :
    ("BUDGET_EXCEEDED" ∈ j.kinds ↔ ∃ f, ended = some f ∧ f.reason.kind = .timeout) ∧
      Stands "BUDGET_EXCEEDED" (fun _ after => after = []) j.kinds := by
  have never : ∀ {kinds : List String}, "BUDGET_EXCEEDED" ∉ kinds →
      Stands "BUDGET_EXCEEDED" (fun _ after => after = []) kinds := by
    rintro _ within before after rfl
    exact absurd within (by simp)
  cases h with
  | cut j _ data r h kind =>
    rw [j.kinds_log h.enabled]
    constructor
    · simp [kind]
    · intro before after whole
      obtain ⟨front, rfl, hnew⟩ | ⟨rest, hfront, hafter⟩ := List.append_eq_append_iff.mp whole
      · cases front <;> simp_all
      · cases rest with
        | nil => simpa using hafter
        | cons _ rest =>
          cases hafter
          exact absurd h.within (by simp [hfront])
  | found _ _ h => exact ⟨by simp [h.within], never h.within⟩
  | fatal _ _ _ h kind => exact ⟨by simp [h.within, kind], never h.within⟩
  | exhausted _ _ _ h kind => exact ⟨by simp [h.within, kind], never h.within⟩
  | replans _ _ _ h => exact ⟨by simp [h.within, replanLimit], never h.within⟩

/-- A search that is exhausted has failed last for what its latest backtrack says. -/
theorem blamed (h : j.Ends b ended) (f : Failure) (hf : ended = some f)
    (kind : f.reason.kind = .searchExhausted)
    (searched : ∀ c, f ≠ replanLimit b.maxReplans c) :
    ∃ cause, f.causes = [cause] ∧ Blames j.trace.events cause := by
  cases h with
  | found => cases hf
  | exhausted _ _ cause h =>
    cases hf
    exact ⟨cause, rfl, h.blamed cause rfl⟩
  | replans _ _ c =>
    cases hf
    exact absurd rfl (searched c)
  | fatal _ _ _ _ other =>
    cases hf
    rw [kind] at other
    cases other
  | cut _ _ _ _ _ other =>
    cases hf
    rw [kind] at other
    cases other

end Journal.Ends

def PlanResult.kinds (r : PlanResult) : List String := r.events.map Event.kind

/-- The trace of a run agrees with its counts and with its failure. -/
structure PlanResult.Traced (b : Budgets) (r : PlanResult) : Prop where
  backtracks : r.kinds.count "BACKTRACK" = r.stats.backtracks
  applied : r.kinds.count "COMMAND_APPLIED" = r.stats.applied
  replans : r.kinds.count "REPLAN" = r.stats.replans
  refusals : Stands "COMMAND_FAILED" (fun _ after => after.head? = some "BACKTRACK") r.kinds
  warnings : r.kinds.count "SOFT_BUDGET_BACKTRACKS" =
    if max 1 b.maxBacktracks ≤ r.stats.backtracks then 1 else 0
  /-- The warning comes right after the backtrack at which the limit is reached. -/
  warned : Stands "SOFT_BUDGET_BACKTRACKS" (fun before _ => before.getLast? = some "BACKTRACK" ∧
    (before.count "BACKTRACK" : ℤ) = max 1 b.maxBacktracks) r.kinds
  exceeded : "BUDGET_EXCEEDED" ∈ r.kinds ↔
    ∃ f, r.plan = .error f ∧ f.reason.kind = .timeout
  exceeded_last : Stands "BUDGET_EXCEEDED" (fun _ after => after = []) r.kinds
  /-- An exhausted search names its latest backtrack as the cause. -/
  blamed : ∀ f, r.plan = .error f → f.reason.kind = .searchExhausted →
    (∀ c, f ≠ replanLimit b.maxReplans c) → ∃ cause, f.causes = [cause] ∧ Blames r.events cause

/-- Whatever a run comes to, its trace agrees with its counts and with its failure. -/
theorem plan_traced (clock : Clock) (d : Domain) (config : PlannerConfig) (s : State)
    (entries : List Entry) (r : PlanResult) (traced : config.includeTrace = true)
    (h : plan clock d config s entries = .ok r) : r.Traced config.budgets := by
  rw [plan_eq_journaled] at h
  obtain ⟨⟨result, j⟩, hrun, h⟩ := (bind_eq_ok_iff _ _ _).mp h
  cases h
  have ends := planJournaled_ends clock d config s entries result j traced hrun
  obtain ⟨hb, ha, hr, hw⟩ := ends.account.counts
  have failed : ∀ f, failure? result = some f ↔ result = .error f := by
    intro f
    cases result <;> simp [failure?]
  refine ⟨hb, ha, hr, ends.account.stands_refusal, hw, ends.account.stands_warning, ?_,
    ends.exceeded.2, ?_⟩
  · simp only [← failed]
    exact ends.exceeded.1
  · intro f hf
    exact ends.blamed f ((failed f).mpr hf)

/-! ### A strike

The courier refuses, too, so the delivery is planned three times and then given up. -/

namespace Delivery
open Journey (command)

def strike : Domain :=
  { domain with actuators := domain.actuators ++
      [("carry", command "courier" 6 fun _ => .refused (.str "on strike"))] }

def strict : PlannerConfig :=
  { config with budgets := { config.budgets with maxBacktracks := 1 } }

theorem traced_on_strike : strict.includeTrace = true ∧
    ∃ r, plan Clock.stopped strike strict State.empty entries = .ok r ∧ r.Traced strict.budgets ∧
      r.stats.backtracks = 3 ∧ r.stats.replans = 2 ∧
      r.kinds.filter (accountedKinds.contains ·) = ["COMMAND_APPLIED", "COMMAND_APPLIED", "REPLAN",
        "COMMAND_APPLIED", "COMMAND_FAILED", "BACKTRACK", "SOFT_BUDGET_BACKTRACKS",
        "COMMAND_APPLIED", "REPLAN", "COMMAND_APPLIED", "COMMAND_FAILED", "BACKTRACK",
        "COMMAND_FAILED", "BACKTRACK"] := by
  obtain ⟨r, hr, hread⟩ := Option.map_eq_some_iff.mp
    (by decide +kernel : (plan Clock.stopped strike strict State.empty entries).toOption.map
      (fun r => (r.stats.backtracks, r.stats.replans, r.kinds.filter (accountedKinds.contains ·))) =
        some (3, 2, ["COMMAND_APPLIED", "COMMAND_APPLIED", "REPLAN",
          "COMMAND_APPLIED", "COMMAND_FAILED", "BACKTRACK", "SOFT_BUDGET_BACKTRACKS",
          "COMMAND_APPLIED", "REPLAN", "COMMAND_APPLIED", "COMMAND_FAILED", "BACKTRACK",
          "COMMAND_FAILED", "BACKTRACK"]))
  obtain ⟨backtracks, hread⟩ := Prod.mk.inj hread
  obtain ⟨replans, kinds⟩ := Prod.mk.inj hread
  have hr := toOption_eq_some_iff.mp hr
  have traced := plan_traced Clock.stopped strike strict State.empty entries r rfl hr
  exact ⟨rfl, r, hr, traced, backtracks, replans, kinds⟩

/-- The time of a strict run, over as soon as something is planned anew. -/
def hasty : Clock := { Clock.stopped with check := fun st => st.replans * strict.budgets.time }

-- The second search ends before its first step, long before the steps are used up.
example : (plan hasty strike strict State.empty entries).toOption.map (fun r =>
    (r.stats.steps, r.kinds)) = some (3, ["METHOD_SELECTED", "COMMAND_APPLIED",
      "COMMAND_APPLIED", "REPLAN", "BUDGET_EXCEEDED"]) := by
  decide +kernel

end Delivery

end Chronoplan
