import Chronoplan.Planner.Execution
import Chronoplan.Proofs.Faults
import Mathlib.Logic.Relation

/-!
# Journals of a search

What happens in a run is entered at the end of its trace, and its steps are counted. So the journal
of a later moment begins with the trace of an earlier one and has counted the steps in between. The
notes that a turn may take are listed once, and what all of them leave alone follows from the list.
-/

set_option autoImplicit false

namespace Chronoplan

/-- At no check of the budgets has the time run out. -/
def Clock.Within (clock : Clock) (time : Int) : Prop := ∀ st, clock.check st < time

theorem Clock.stopped_within (time : Int) (h : 0 < time) : Clock.stopped.Within time := fun _ => h

/-- The second journal goes on from the first and has counted further steps. -/
structure Journal.After (j : Journal) (taken : ℕ) (j' : Journal) : Prop where
  enabled : j'.trace.enabled = j.trace.enabled
  events : j.trace.events <+: j'.trace.events
  steps : j'.stats.steps = j.stats.steps + taken

namespace Journal

theorem After.refl (j : Journal) : j.After 0 j := ⟨rfl, List.prefix_refl _, rfl⟩

theorem After.trans {j j' j'' : Journal} {taken more : ℕ} (h : j.After taken j')
    (h' : j'.After more j'') : j.After (taken + more) j'' := by
  constructor
  · rw [h'.enabled, h.enabled]
  · exact h.events.trans h'.events
  · rw [h'.steps, h.steps, Nat.add_assoc]

theorem log_events (j : Journal) (kind : String) (data : List (String × Value))
    (item : Option String) (depth : ℕ) (method : Option String) :
    ∃ e : Event, e.kind = kind ∧ (j.log kind data item depth method).trace.events =
      if j.trace.enabled then j.trace.events ++ [e] else j.trace.events := by
  refine ⟨{ kind, data := .dict (data.map fun e => (.str e.1, e.2)), item, method, depth }, rfl, ?_⟩
  unfold log
  split
  · next on => exact j.trace.events_log _ on
  · next off => simp [Trace.log, off]

theorem after_log (j : Journal) (kind : String) (data : List (String × Value))
    (item : Option String) (depth : ℕ) (method : Option String) :
    j.After 0 (j.log kind data item depth method) := by
  constructor
  · unfold log Trace.log
    split <;> rfl
  · obtain ⟨e, -, events⟩ := j.log_events kind data item depth method
    rw [events]
    split
    · exact List.prefix_append _ _
    · exact List.prefix_refl _
  · rfl

theorem after_countStep (j : Journal) : j.After 1 j.countStep :=
  ⟨rfl, List.prefix_refl _, rfl⟩

theorem after_reachDepth (j : Journal) (depth : ℕ) : j.After 0 (j.reachDepth depth) :=
  ⟨rfl, List.prefix_refl _, rfl⟩

theorem after_warn (j : Journal) (limit : Int) : j.After 0 (j.warn limit) := by
  unfold warn
  split
  · obtain ⟨enabled, events, steps⟩ := after_log { j with warned := true }
      "SOFT_BUDGET_BACKTRACKS" [("count", .int j.stats.backtracks), ("limit", .int limit)] none 0
      none
    exact ⟨enabled, events, steps⟩
  · exact .refl j

theorem after_commandApplied (j : Journal) (c : Call) (depth : ℕ) :
    j.After 0 (j.commandApplied c depth) := by
  obtain ⟨enabled, events, steps⟩ := after_log
    { j with stats := { j.stats with applied := j.stats.applied + 1 } }
    "COMMAND_APPLIED" [("command", .str c.text)] (some c.text) depth none
  exact ⟨enabled, events, steps⟩

theorem after_backtrack (j : Journal) (limit : Int) (r : Reason) (p : Pending) :
    j.After 0 (j.backtrack limit r p) := by
  obtain ⟨enabled, events, steps⟩ := (after_log
    { j with stats := { j.stats with backtracks := j.stats.backtracks + 1 } }
    "BACKTRACK" [("kind", .str r.kind.name), ("reason", .str r.message),
      ("backtrack_count", .int (j.stats.backtracks + 1 : ℕ))] (some p.text) p.depth none).trans
    (after_warn _ limit)
  exact ⟨enabled, events, steps⟩

theorem after_replan (j : Journal) (failed : Call) : j.After 0 (j.replan failed) := by
  obtain ⟨enabled, events, steps⟩ := after_log
    { j with stats := { j.stats with replans := j.stats.replans + 1 } }
    "REPLAN" [("failed", .str failed.text), ("replans", .int (j.stats.replans + 1 : ℕ))]
    (some failed.text) 0 none
  exact ⟨enabled, events, steps⟩

end Journal

/-! ### Notes of a turn -/

/-- What a turn of the search may note. -/
inductive Journal.Note (j : Journal) : Journal → Prop
  | satisfied (g : Goal) (depth : ℕ) : Note j (j.goalEvent "GOAL_SATISFIED" g depth)
  | verified (g : Goal) (depth : ℕ) : Note j (j.goalEvent "GOAL_VERIFIED" g depth)
  | applied (c : Call) (depth : ℕ) : Note j (j.commandApplied c depth)
  | refused (c : Call) (kind : FailureKind) (reason : Value) (depth : ℕ) :
    Note j (j.commandFailed c kind reason depth)
  | declined (item : WorkItem) (method : String) (depth : ℕ) :
    Note j (j.methodDeclined item method depth)
  | selected (item : WorkItem) (method : String) (expansion : List Entry) (depth : ℕ) :
    Note j (j.methodSelected item method expansion depth)
  | backtracked (limit : Int) (r : Reason) (p : Pending) : Note j (j.backtrack limit r p)

abbrev Journal.Notes : Journal → Journal → Prop := Relation.ReflTransGen Journal.Note

/-- The notes of what goes on, without those of failures. -/
inductive Journal.Remark (j : Journal) : Journal → Prop
  | satisfied (g : Goal) (depth : ℕ) : Remark j (j.goalEvent "GOAL_SATISFIED" g depth)
  | verified (g : Goal) (depth : ℕ) : Remark j (j.goalEvent "GOAL_VERIFIED" g depth)
  | applied (c : Call) (depth : ℕ) : Remark j (j.commandApplied c depth)
  | declined (item : WorkItem) (method : String) (depth : ℕ) :
    Remark j (j.methodDeclined item method depth)
  | selected (item : WorkItem) (method : String) (expansion : List Entry) (depth : ℕ) :
    Remark j (j.methodSelected item method expansion depth)

abbrev Journal.Remarks : Journal → Journal → Prop := Relation.ReflTransGen Journal.Remark

/-- What a turn tells of its outcome: remarks or, for a failure, that a command was refused. -/
inductive Journal.Tells (failed : Reason → Prop) (j : Journal) : Journal → Prop
  | remarks (j' : Journal) (h : j.Remarks j') : Tells failed j j'
  | refused (r : Reason) (hr : failed r) (c : Call) (reason : Value) (depth : ℕ) :
    Tells failed j (j.commandFailed c r.kind reason depth)

namespace Journal

theorem Remark.note {j j' : Journal} (h : j.Remark j') : j.Note j' := by
  cases h with
  | satisfied g depth => exact .satisfied g depth
  | verified g depth => exact .verified g depth
  | applied c depth => exact .applied c depth
  | declined item method depth => exact .declined item method depth
  | selected item method expansion depth => exact .selected item method expansion depth

theorem Remarks.notes {j j' : Journal} (h : j.Remarks j') : j.Notes j' :=
  Relation.ReflTransGen.mono (fun _ _ => Remark.note) j j' h

section

variable {failed failed' : Reason → Prop} {j j' : Journal}

theorem Tells.notes (h : j.Tells failed j') : j.Notes j' := by
  cases h with
  | remarks _ h => exact h.notes
  | refused r _ c reason depth => exact .single (.refused c r.kind reason depth)

theorem Tells.mono (h : j.Tells failed j') (sub : ∀ r, failed r → failed' r) :
    j.Tells failed' j' := by
  cases h with
  | remarks _ h => exact .remarks _ h
  | refused r hr c reason depth => exact .refused r (sub r hr) c reason depth

theorem Tells.unfailing (h : j.Tells failed j') (none : ∀ r, ¬ failed r) : j.Remarks j' := by
  cases h with
  | remarks _ h => exact h
  | refused r hr => exact absurd hr (none r)

end

theorem Note.after {j j' : Journal} (h : j.Note j') : j.After 0 j' := by
  cases h with
  | applied c depth => exact j.after_commandApplied c depth
  | backtracked limit r p => exact j.after_backtrack limit r p
  | _ => exact j.after_log _ _ _ _ _

theorem Notes.after {j j' : Journal} (h : j.Notes j') : j.After 0 j' := by
  induction h with
  | refl => exact .refl j
  | tail _ note ih => exact ih.trans note.after

theorem warn_stats (j : Journal) (limit : Int) : (j.warn limit).stats = j.stats := by
  unfold warn
  split <;> rfl

theorem Note.maxDepth {j j' : Journal} (h : j.Note j') : j'.stats.maxDepth = j.stats.maxDepth := by
  cases h with
  | backtracked limit r p =>
    rw [backtrack, warn_stats]
    rfl
  | _ => rfl

theorem Notes.maxDepth {j j' : Journal} (h : j.Notes j') :
    j'.stats.maxDepth = j.stats.maxDepth := by
  induction h with
  | refl => rfl
  | tail _ note ih => rw [note.maxDepth, ih]

end Journal

end Chronoplan
