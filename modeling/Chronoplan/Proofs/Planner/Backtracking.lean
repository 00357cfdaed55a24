import Chronoplan.Proofs.Planner.Choices
import Chronoplan.Proofs.Planner.Journals

/-!
# Search by a stack of choice points

The search keeps its open branch points on a stack and resumes the newest one after a failure.
Each step keeps what the search will come to: the ending of the current node or, after its
failure, that of the choice points below, newest first. So a search that is not cut short by its
budget ends as exploration by recursion does.
-/

set_option autoImplicit false

namespace Chronoplan
open Exploration

/-- What a search without a budget answers for an ending. -/
def Ending.verdict : Ending → Verdict
  | .found n => .found n
  | .failed r => .failed {
      reason := {
        kind := .searchExhausted
        message := "No choice point left to backtrack to"
        item := none }
      causes := [r] }
  | .fatal r => .failed { reason := r, causes := [] }

def Verdict.timedOut : Verdict → Bool
  | .found _ => false
  | .failed f => f.reason.kind = .timeout

/-- What is left of an exploration after a failure: the choice points from the newest on. -/
def unwind (ctx : Setting) : List ChoicePoint → Reason → Except Fault Ending
  | [], last => .ok (.failed last)
  | p :: below, last =>
    retry (firstEnding p.item p.node.state
      (fun expansion => explore ctx (refined ctx p.node p.item p.depth expansion)) last p.untried)
      (unwind ctx below)

theorem retry_retry (e : Except Fault Ending) (f g : Reason → Except Fault Ending) :
    retry (retry e f) g = retry e fun r => retry (f r) g := by
  cases e with
  | error e => rfl
  | ok ending => cases ending <;> rfl

/-- A search has an ending ahead of it. Without a node it has the failure that it goes back on. -/
def Leads (ctx : Setting) (s : Search) (e : Except Fault Ending) : Prop :=
  (∃ n, s.node = some n ∧ retry (explore ctx n) (unwind ctx s.choices) = e) ∨
    ∃ r, s.node = none ∧ s.lastFailure = some r ∧ unwind ctx s.choices r = e

/-! The journal plays no part in what a turn leads to, and a turn only adds to it. -/

/-- What a turn makes of a search; a branch point is resumed at its first method. -/
def Turn.enter (ctx : Setting) (here : Node) (choices : List ChoicePoint) (j : Journal) :
    Turn → Except Fault (Advance × List ChoicePoint × Journal)
  | .proceed n => .ok (.node n, choices, j)
  | .failed r => .ok (.failed r, choices, j)
  | .fatal r => .ok (.fatal r, choices, j)
  | .choose item depth methods =>
    resume ctx { node := here, item, depth, untried := methods } choices j

/-- A command that is refused is told of as the turn fails, if that can be written. -/
theorem refusal_refuse (ctx : Setting) (here : Node) (c : Call) (kind : FailureKind)
    (reason : Value) (depth : Nat) (choices : List ChoicePoint) (j : Journal) :
    ∃ j', j.Tells (fun r => refuse c kind reason = .ok (.failed r)) j' ∧
      (do
        let (result, j) ← refusal c kind reason depth j
        return (result, choices, j)) =
      refuse c kind reason >>= Turn.enter ctx here choices j' := by
  unfold refusal refuse
  cases c.isWritable && reason.isWritable with
  | false => exact ⟨j, .remarks j .refl, rfl⟩
  | true => exact ⟨_, .refused (refused c kind reason) (by rfl) .., rfl⟩

theorem applyCommand_perform (ctx : Setting) (node : Node) (c : Call) (depth : Nat)
    (rest : List Pending) (choices : List ChoicePoint) (j : Journal) :
    ∃ j', j.Tells (fun r => perform ctx { node with pending := rest } c = .ok (.failed r)) j' ∧
      (do
        let (result, j) ← applyCommand ctx node c depth rest j
        return (result, choices, j)) =
      perform ctx { node with pending := rest } c >>=
        Turn.enter ctx { node with pending := rest } choices j' := by
  unfold applyCommand perform
  cases Domain.registered? c.name ctx.domain.commands with
  | error e => exact ⟨j, .remarks j .refl, rfl⟩
  | ok found =>
    cases found with
    | none => exact ⟨j, .remarks j .refl, by cases c.name.isWritable <;> rfl⟩
    | some f =>
      simp only [ok_bind]
      cases ctx.blacklist.contains c with
      | error e => exact ⟨j, .remarks j .refl, rfl⟩
      | ok listed =>
        cases listed with
        | true => exact refusal_refuse ctx _ c .blacklisted _ depth choices j
        | false =>
          simp only [ok_bind]
          cases f.run node.state c.args with
          | error e => exact ⟨j, .remarks j .refl, rfl⟩
          | ok outcome =>
            simp only [ok_bind, settle]
            by_cases hd : outcome.declined = true
            · simp only [hd]
              exact refusal_refuse ctx _ c .commandPrecondition _ depth choices j
            · simp only [hd]
              cases outcome with
              | lasting e =>
                have hplace : place { node with pending := rest } c e = place node c e := rfl
                simp only [hplace]
                cases place node c e with
                | error e => exact ⟨j, .remarks j .refl, rfl⟩
                | ok placed =>
                  cases placed with
                  | error r => exact ⟨_, .refused r (by rfl) .., rfl⟩
                  | ok booked => exact ⟨_, .remarks _ (.single (.applied c depth)), rfl⟩
              | refused reason =>
                exact refusal_refuse ctx _ c .commandPrecondition reason depth choices j
              | state s =>
                simp only
                cases c.isWritable with
                | false => exact ⟨j, .remarks j .refl, rfl⟩
                | true => exact ⟨_, .remarks _ (.single (.applied c depth)), rfl⟩
              | _ => exact ⟨j, .remarks j .refl, rfl⟩

theorem refine_branch (ctx : Setting) (node : Node) (item : WorkItem) (depth : Nat)
    (rest : List Pending) (choices : List ChoicePoint) (j : Journal) :
    refine ctx node item depth rest choices j = branch ctx item depth >>=
      Turn.enter ctx { node with pending := rest } choices j := by
  unfold refine branch
  cases ctx.domain.candidates item with
  | error e => rfl
  | ok found =>
    simp only [ok_bind]
    cases found.getD [] with
    | nil => cases item.name.isWritable <;> rfl
    | cons m methods =>
      by_cases hd : ctx.config.budgets.maxDepth ≤ depth
      · simp only [hd]
        cases (Value.int ctx.config.budgets.maxDepth).isWritable && item.isWritable <;> rfl
      · simp [hd]
        rfl

theorem advance_turn (ctx : Setting) (node : Node) (front : Pending) (rest : List Pending)
    (choices : List ChoicePoint) (j : Journal) :
    ∃ j', j.Tells (fun r => turn ctx { node with pending := rest } front = .ok (.failed r)) j' ∧
      advance ctx node front rest choices j =
      turn ctx { node with pending := rest } front >>=
        Turn.enter ctx { node with pending := rest } choices j' := by
  match front with
  | .verify g depth =>
    cases ha : ctx.domain.achieved node.state g with
    | error e =>
      exact ⟨j, .remarks j .refl, by simp only [advance, turn, unlessAchieved, ha, error_bind]⟩
    | ok holds =>
      simp only [advance, turn, unlessAchieved, ha, ok_bind]
      cases hw : g.isWritable with
      | false => exact ⟨j, .remarks j .refl, by cases holds <;> rfl⟩
      | true =>
        cases holds with
        | true => exact ⟨_, .remarks _ (.single (.verified ..)), rfl⟩
        | false => exact ⟨j, .remarks j .refl, rfl⟩
  | .work (.other v) _ =>
    exact ⟨j, .remarks j .refl, by simp only [advance, turn]; cases v.isWritable <;> rfl⟩
  | .work (.item (.command c)) depth => exact applyCommand_perform ctx node c depth rest choices j
  | .work (.item (.goal g)) depth =>
    cases ha : ctx.domain.achieved node.state g with
    | error e =>
      exact ⟨j, .remarks j .refl, by simp only [advance, turn, unlessAchieved, ha, error_bind]⟩
    | ok holds =>
      simp only [advance, turn, unlessAchieved, ha, ok_bind]
      cases holds with
      | true =>
        simp only
        cases g.isWritable with
        | false => exact ⟨j, .remarks j .refl, rfl⟩
        | true => exact ⟨_, .remarks _ (.single (.satisfied ..)), rfl⟩
      | false => exact ⟨j, .remarks j .refl, refine_branch ctx node (.goal g) depth rest choices j⟩
  | .work (.item (.task t)) depth =>
    exact ⟨j, .remarks j .refl, refine_branch ctx node (.task t) depth rest choices j⟩

theorem spliced_eq_expanded (ctx : Setting) (item : WorkItem) (expansion : List Entry)
    (depth : Nat) : spliced ctx item expansion depth = expanded ctx item expansion depth := by
  cases item with
  | goal g =>
    simp only [spliced, expanded, marks]
    split
    · rfl
    · rw [List.append_nil]
  | task t => exact (List.append_nil _).symm
  | command c => exact (List.append_nil _).symm

/-- Resuming a choice point does what is left of the exploration there: it meets a fault, finds
no method that applies, or goes on with a refinement and keeps the methods after it. -/
theorem resume_unwind (ctx : Setting) (p : ChoicePoint) (below : List ChoicePoint) (j : Journal)
    (last : Reason) :
    (∃ e, resume ctx p below j = .error e ∧ unwind ctx (p :: below) last = .error e) ∨
    (∃ j', resume ctx p below j = .ok (.failed (noApplicable p.item), below, j') ∧
      unwind ctx (p :: below) last = unwind ctx below last) ∨
    ∃ n choices j', resume ctx p below j = .ok (.node n, choices, j') ∧
      unwind ctx (p :: below) last = retry (explore ctx n) (unwind ctx choices) := by
  obtain ⟨node, item, depth, untried⟩ := p
  simp only [resume, unwind, spliced_eq_expanded]
  induction untried generalizing j with
  | nil => exact .inr (.inl ⟨j, rfl, rfl⟩)
  | cons m rest ih =>
    simp only [firstApplicable, firstEnding, Candidate.refinement]
    cases m.run node.state with
    | error e => exact .inl ⟨e, rfl, rfl⟩
    | ok outcome =>
      simp only [ok_bind]
      by_cases hd : outcome.declined = true
      · simp only [hd]
        cases item.isWritable with
        | false => exact .inl ⟨_, rfl, rfl⟩
        | true => exact ih _
      · simp only [hd]
        cases outcome.expansion? with
        | none => exact .inl ⟨_, rfl, rfl⟩
        | some expansion =>
          simp only
          cases item.isWritable && expansion.all Entry.isWritable with
          | false => exact .inl ⟨_, rfl, rfl⟩
          | true =>
            refine .inr (.inr ⟨refined ctx node item depth expansion,
              ⟨node, item, depth, rest⟩ :: below, _, rfl, ?_⟩)
            exact retry_retry _ _ _

/-- What a step may come to, when an ending is ahead. -/
def Keeps (ctx : Setting) (progress : Except Fault Progress) (e : Except Fault Ending) : Prop :=
  (∃ f, progress = .error f ∧ e = .error f) ∨
  (∃ s, progress = .ok (.more s) ∧ Leads ctx s e) ∨
  ∃ ending j, progress = .ok (.done ending.verdict j) ∧ e = .ok ending

theorem stepBack_leads (ctx : Setting) (s : Search) (last : Reason)
    (hlast : s.lastFailure = some last) :
    Keeps ctx (s.stepBack ctx) (unwind ctx s.choices last) := by
  unfold Search.stepBack
  cases hc : s.choices with
  | nil =>
    refine .inr (.inr ⟨.failed last, s.journal, ?_, rfl⟩)
    simp [hlast, Ending.verdict]
  | cons p below =>
    simp only
    rcases resume_unwind ctx p below s.journal.countStep last with
      ⟨e, hr, hu⟩ | ⟨j, hr, hu⟩ | ⟨n, choices, j, hr, hu⟩
    · rw [hr, hu]
      exact .inl ⟨e, rfl, rfl⟩
    · rw [hr, hu]
      exact .inr (.inl ⟨_, rfl, .inr ⟨last, rfl, by simp [hlast], rfl⟩⟩)
    · rw [hr, hu]
      exact .inr (.inl ⟨_, rfl, .inl ⟨n, rfl, rfl⟩⟩)

theorem stepForward_leads (ctx : Setting) (s : Search) (n : Node) :
    Keeps ctx (s.stepForward ctx n) (retry (explore ctx n) (unwind ctx s.choices)) := by
  unfold Search.stepForward
  cases hp : n.pending with
  | nil =>
    rw [explore_nil ctx n hp]
    exact .inr (.inr ⟨.found n, s.journal, rfl, rfl⟩)
  | cons front rest =>
    simp only
    obtain ⟨j, -, hadvance⟩ := advance_turn ctx n front rest s.choices
      (s.journal.countStep.reachDepth front.depth)
    rw [hadvance, explore_cons ctx n front rest hp]
    cases turn ctx { n with pending := rest } front with
    | error e => exact .inl ⟨e, rfl, rfl⟩
    | ok t =>
      cases t with
      | failed r => exact .inr (.inl ⟨_, rfl, .inr ⟨r, rfl, rfl, rfl⟩⟩)
      | fatal r => exact .inr (.inr ⟨.fatal r, _, rfl, rfl⟩)
      | proceed n' => exact .inr (.inl ⟨_, rfl, .inl ⟨n', rfl, rfl⟩⟩)
      | choose item depth methods =>
        -- the new choice point is resumed at once, as if a branch before its methods had failed
        simp only [ok_bind, Turn.enter]
        rcases resume_unwind ctx ⟨{ n with pending := rest }, item, depth, methods⟩ s.choices j
            (noApplicable item) with ⟨e, hr, hu⟩ | ⟨j', hr, hu⟩ | ⟨n', choices, j', hr, hu⟩
        · rw [hr]
          exact .inl ⟨e, rfl, hu⟩
        · rw [hr]
          exact .inr (.inl ⟨_, rfl, .inr ⟨noApplicable item, rfl, rfl, hu.symm⟩⟩)
        · rw [hr]
          exact .inr (.inl ⟨_, rfl, .inl ⟨n', rfl, hu.symm⟩⟩)

/-- A step keeps the ending ahead, or arrives at it. -/
theorem step_leads (ctx : Setting) (s : Search) (e : Except Fault Ending) (h : Leads ctx s e) :
    Keeps ctx (s.step ctx) e := by
  obtain ⟨n, hn, rfl⟩ | ⟨r, hn, hlast, rfl⟩ := h
  · simp only [Search.step, hn]
    exact stepForward_leads ctx s n
  · simp only [Search.step, hn]
    exact stepBack_leads ctx s r hlast

theorem giveUp_timedOut (clock : Clock) (status : String) (s : Search) :
    (s.giveUp clock status).1.timedOut = true := rfl

/-- A run that its budget does not cut short arrives at the ending ahead. The induction is on the
steps that remain. -/
theorem run_leads (ctx : Setting) (remaining : Nat) (s : Search) (e : Except Fault Ending)
    (h : Leads ctx s e) :
    (∃ v j, Search.run ctx remaining s = .ok (v, j) ∧ v.timedOut = true) ∨
      (Search.run ctx remaining s).map Prod.fst = e.map Ending.verdict := by
  induction remaining generalizing s with
  | zero => exact .inl ⟨_, _, rfl, giveUp_timedOut ctx.clock "STEP_LIMIT" s⟩
  | succ remaining ih =>
    rw [Search.run]
    split
    · exact .inl ⟨_, _, rfl, giveUp_timedOut ctx.clock "TIME_EXCEEDED" s⟩
    · rcases step_leads ctx s e h with ⟨f, hs, rfl⟩ | ⟨s', hs, hl⟩ | ⟨ending, j, hs, rfl⟩
      · rw [hs]
        exact .inr rfl
      · rw [hs]
        exact ih s' hl
      · rw [hs]
        exact .inr rfl

theorem search_explore (ctx : Setting) (root : Node) (j : Journal) :
    (∃ v j', search ctx root j = .ok (v, j') ∧ v.timedOut = true) ∨
      (search ctx root j).map Prod.fst = (explore ctx root).map Ending.verdict := by
  refine run_leads ctx _ _ _ (.inl ⟨root, rfl, ?_⟩)
  cases explore ctx root with
  | error e => rfl
  | ok ending => cases ending <;> rfl

/-- A plan is found at the end of a single branch. -/
theorem search_found (ctx : Setting) (root n : Node) (j j' : Journal)
    (h : search ctx root j = .ok (.found n, j')) :
    ∃ choice, follow ctx choice root = .ok (.found n) := by
  rcases search_explore ctx root j with ⟨v, j'', hs, ht⟩ | same
  · rw [h] at hs
    cases hs
    cases ht
  · have hx : explore ctx root = .ok (.found n) := by
      rw [h] at same
      cases hx : explore ctx root with
      | error e => rw [hx] at same; cases same
      | ok ending =>
        rw [hx] at same
        cases ending <;> cases same
        rfl
    obtain ⟨-, choice, hc, -⟩ := (explore_eq_iff ctx root _ (not_fails_found n)).mp hx
    exact ⟨choice, hc⟩

/-- A fatal failure is never that of a search that has run out of branches. -/
theorem arrives_fatal (ctx : Setting) (node : Node) (r : Reason)
    (h : Arrives ctx node (.fatal r)) : r.kind = .unknownMethod := by
  generalize he : Ending.fatal r = ending at h
  induction h with
  | found => cases he
  | failed => cases he
  | fatal node front rest r' hp ht =>
    cases he
    exact turn_fatal ctx _ front r ht
  | proceed _ _ _ _ _ _ _ _ ih => exact ih he
  | refined _ _ _ _ _ _ _ _ _ _ _ _ _ _ ih => exact ih he

theorem verdict_injective (a b : Ending) (h : a.verdict = b.verdict) : a = b := by
  cases a <;> cases b <;> simp_all [Ending.verdict]

theorem explore_eq_of_verdict (ctx : Setting) (root : Node) (j j' : Journal) (ending : Ending)
    (h : (search ctx root j).map Prod.fst = (explore ctx root).map Ending.verdict)
    (hs : search ctx root j = .ok (ending.verdict, j')) : explore ctx root = .ok ending := by
  rw [hs] at h
  cases hx : explore ctx root with
  | error e => rw [hx] at h; cases h
  | ok found =>
    rw [hx] at h
    rw [verdict_injective _ _ (Except.ok.inj h)]

theorem search_eq_of_explore (ctx : Setting) (root : Node) (j : Journal) (ending : Ending)
    (h : (search ctx root j).map Prod.fst = (explore ctx root).map Ending.verdict)
    (hx : explore ctx root = .ok ending) :
    ∃ j', search ctx root j = .ok (ending.verdict, j') := by
  rw [hx] at h
  cases hs : search ctx root j with
  | error e => rw [hs] at h; cases h
  | ok result =>
    rw [hs] at h
    exact ⟨result.2, by rw [← Except.ok.inj h]⟩

theorem search_ending_iff (ctx : Setting) (root : Node) (j : Journal) (ending : Ending)
    (h : (search ctx root j).map Prod.fst = (explore ctx root).map Ending.verdict)
    (hf : ¬ Fails (.ok ending)) :
    (∃ j', search ctx root j = .ok (ending.verdict, j')) ↔ FirstEnding ctx root (.ok ending) := by
  rw [← explore_eq_iff ctx root _ hf]
  constructor
  · rintro ⟨j', hs⟩
    exact explore_eq_of_verdict ctx root j j' ending h hs
  · exact search_eq_of_explore ctx root j ending h

theorem search_error_iff (ctx : Setting) (root : Node) (j : Journal) (e : Fault)
    (h : (search ctx root j).map Prod.fst = (explore ctx root).map Ending.verdict) :
    search ctx root j = .error e ↔ FirstEnding ctx root (.error e) := by
  rw [← explore_eq_iff ctx root _ (not_fails_error e)]
  constructor
  · intro hs
    rw [hs] at h
    cases hx : explore ctx root with
    | error f => rw [hx] at h; cases h; rfl
    | ok ending => rw [hx] at h; cases h
  · intro hx
    rw [hx] at h
    cases hs : search ctx root j with
    | error f => rw [hs] at h; cases h; rfl
    | ok result => rw [hs] at h; cases h

theorem search_exhausted_iff (ctx : Setting) (root : Node) (j : Journal)
    (h : (search ctx root j).map Prod.fst = (explore ctx root).map Ending.verdict) :
    (∃ f j', search ctx root j = .ok (.failed f, j') ∧ f.reason.kind = .searchExhausted) ↔
      ∀ choice, Fails (follow ctx choice root) := by
  rw [← explore_fails_iff]
  constructor
  · rintro ⟨f, j', hs, hk⟩
    rw [hs] at h
    cases hx : explore ctx root with
    | error e => rw [hx] at h; cases h
    | ok ending =>
      rw [hx] at h
      cases ending with
      | found n => cases h
      | failed r => exact ⟨r, rfl⟩
      | fatal r =>
        obtain ⟨-, choice, hc, -⟩ :=
          (explore_eq_iff ctx root _ (not_fails_fatal r)).mp hx
        have hr := arrives_fatal ctx root r (follow_arrives ctx choice root _ hc)
        cases h
        rw [hr] at hk
        cases hk
  · rintro ⟨r, hx⟩
    obtain ⟨j', hs⟩ := search_eq_of_explore ctx root j _ h hx
    exact ⟨_, j', hs, rfl⟩

/-- A search that its budget does not cut short ends as exploration by recursion. It is exhausted
exactly when every sequence of choices fails; otherwise the first sequence that does not fail
decides, and what it meets is what the search reports: the node of a plan, a fatal failure or a
fault. -/
theorem search_ends_as_explored (ctx : Setting) (root : Node) (j : Journal)
    (h : ∀ v j', search ctx root j = .ok (v, j') → v.timedOut = false) :
    (search ctx root j).map Prod.fst = (explore ctx root).map Ending.verdict ∧
    ((∃ f j', search ctx root j = .ok (.failed f, j') ∧ f.reason.kind = .searchExhausted) ↔
      ∀ choice, Fails (follow ctx choice root)) ∧
    (∀ n, (∃ j', search ctx root j = .ok (.found n, j')) ↔
      FirstEnding ctx root (.ok (.found n))) ∧
    (∀ r, (∃ j', search ctx root j = .ok (.failed { reason := r, causes := [] }, j')) ↔
      FirstEnding ctx root (.ok (.fatal r))) ∧
    ∀ e, search ctx root j = .error e ↔ FirstEnding ctx root (.error e) := by
  have same : (search ctx root j).map Prod.fst = (explore ctx root).map Ending.verdict := by
    rcases search_explore ctx root j with ⟨v, j', hs, ht⟩ | hsame
    · rw [h v j' hs] at ht
      cases ht
    · exact hsame
  refine ⟨same, search_exhausted_iff ctx root j same, ?_, ?_, ?_⟩
  · intro n
    exact search_ending_iff ctx root j (.found n) same (not_fails_found n)
  · intro r
    exact search_ending_iff ctx root j (.fatal r) same (not_fails_fatal r)
  · intro e
    exact search_error_iff ctx root j e same

/-! ## A journey

On foot it fails after its first command; by bus it takes time. -/

namespace Journey

def note (name : String) (s : State) : State :=
  s.write { category := defaultCategory, name := .str name, entities := [] } (.bool true)

def command (name : String) (serial : Nat) (outcome : State → Outcome) : Callback (List Value) :=
  { name, serial, run := fun s _ => .ok (outcome s) }

def method (name : String) (serial : Nat) (commands : List String) : Callback (List Value) :=
  { name, serial, run := fun _ _ =>
      .ok (.items (commands.map fun c => .item (.command ⟨.str c, []⟩)) false) }

def domain : Domain :=
  { Domain.empty "journey" with
    commands := [
      ("pack", command "pack" 0 fun s => .state (note "packed" s)),
      ("walk", command "walk" 1 fun _ => .refused (.str "too far")),
      ("ride", command "ride" 2 fun s => .lasting {
        state := note "arrived" s, duration := .int 5, deadline := .int 10, release := .null })]
    tasks := [("travel", [method "on foot" 3 ["pack", "walk"], method "by bus" 4 ["pack", "ride"]])] }

def entries : List Entry := [.item (.task ⟨.str "travel", []⟩)]

def setting : Setting :=
  { domain, config := PlannerConfig.standard, blacklist := [], clock := Clock.stopped }

def root : Node :=
  { state := State.empty, pending := entries.map fun e => .work e 0, network := Network.standard,
    commands := [], schedule := [], cursor := .int 0 }

theorem search_not_timedOut : ∀ v j', search setting root (Journal.new true) = .ok (v, j') →
    v.timedOut = false := by
  intro v j' hs
  have h : (match search setting root (Journal.new true) with
    | .ok (v, _) => v.timedOut
    | .error _ => false) = false := by rfl
  rw [hs] at h
  exact h

/-- The second method is the first choice that leads to a plan. -/
theorem first_ending :
    (∀ v j', search setting root (Journal.new true) = .ok (v, j') → v.timedOut = false) ∧
      ∃ n, FirstEnding setting root (.ok (.found n)) ∧
        n.commands.map Call.text = ["pack()", "ride()"] := by
  obtain ⟨n, j', hs, hc⟩ : ∃ n j', search setting root (Journal.new true) = .ok (.found n, j') ∧
      n.commands.map Call.text = ["pack()", "ride()"] := ⟨_, _, rfl, rfl⟩
  refine ⟨search_not_timedOut, n, ?_, hc⟩
  exact ((search_ends_as_explored setting root _ search_not_timedOut).2.2.1 n).mp ⟨j', hs⟩

end Journey

end Chronoplan
