import Chronoplan.Proofs.Planner.Backtracking

/-!
# Steps of a search

All that a single step can do is listed here once: how a choice point is resumed, what becomes of
the front of a work list, and what the step leaves of the search. Inductions over whole searches
take their cases from the lists and do not look into the step.
-/

set_option autoImplicit false

namespace Chronoplan
open Exploration

/-! ### Methods that are tried -/

/-- The methods left after the one that is taken are fewer. -/
theorem firstApplicable_remarks (item : WorkItem) (depth : ℕ) (s : State)
    (methods : List Candidate) (j j' : Journal) (found : Option (List Entry × List Candidate))
    (h : firstApplicable item depth s methods j = .ok (found, j')) :
    j.Remarks j' ∧ ∀ expansion untried, found = some (expansion, untried) →
      untried.length < methods.length := by
  induction methods generalizing j with
  | nil =>
    cases h
    exact ⟨.refl, by rintro _ _ ⟨⟩⟩
  | cons m rest ih =>
    obtain ⟨outcome, -, h⟩ := (bind_eq_ok_iff _ _ _).mp h
    split at h
    · obtain ⟨-, h⟩ := (requireWritable_bind_iff _ _ _).mp h
      obtain ⟨remarks, fewer⟩ := ih _ h
      refine ⟨remarks.head (.declined item m.name depth), ?_⟩
      intro expansion untried hfound
      have := fewer expansion untried hfound
      simp only [List.length_cons]
      omega
    · split at h
      · cases h
      · obtain ⟨-, h⟩ := (requireWritable_bind_iff _ _ _).mp h
        cases h
        refine ⟨.single (.selected ..), ?_⟩
        rintro _ _ ⟨⟩
        simp

/-- What becomes of a choice point that is resumed above others: it is dropped after its last
method, or one of its methods is taken and fewer are left. -/
inductive Resumed (ctx : Setting) (p : ChoicePoint) (below : List ChoicePoint) :
    Advance → List ChoicePoint → Prop
  | dropped (r : Reason) : Resumed ctx p below (.failed r) below
  | taken (expansion : List Entry) (untried : List Candidate)
    (fewer : untried.length < p.untried.length) :
    Resumed ctx p below
      (.node (refined ctx p.node p.item p.depth expansion))
      ({ p with untried } :: below)

theorem resume_resumed (ctx : Setting) (p : ChoicePoint) (below choices : List ChoicePoint)
    (j j' : Journal) (a : Advance) (h : resume ctx p below j = .ok (a, choices, j')) :
    j.Remarks j' ∧ Resumed ctx p below a choices := by
  obtain ⟨⟨found, j₁⟩, hfirst, h⟩ := (bind_eq_ok_iff _ _ _).mp h
  obtain ⟨remarks, fewer⟩ := firstApplicable_remarks _ _ _ _ _ _ _ hfirst
  cases found with
  | none =>
    cases h
    exact ⟨remarks, .dropped _⟩
  | some refinement =>
    simp only [spliced_eq_expanded] at h
    cases h
    exact ⟨remarks, .taken _ _ (fewer _ _ rfl)⟩

/-! ### The front of a work list -/

/-- What becomes of a node whose front has been taken off, with the choice points. -/
inductive FrontTaken (ctx : Setting) (here : Node) (front : Pending) (choices : List ChoicePoint) :
    Advance → List ChoicePoint → Prop
  | proceed (n : Node) (ht : turn ctx here front = .ok (.proceed n)) :
    FrontTaken ctx here front choices (.node n) choices
  | failed (r : Reason) : FrontTaken ctx here front choices (.failed r) choices
  | fatal (r : Reason) (kind : r.kind = .unknownMethod) :
    FrontTaken ctx here front choices (.fatal r) choices
  | choose (item : WorkItem) (depth : ℕ) (methods : List Candidate) (a : Advance)
    (choices' : List ChoicePoint)
    (ht : turn ctx here front = .ok (.choose item depth methods))
    (resumed : Resumed ctx ⟨here, item, depth, methods⟩ choices a choices') :
    FrontTaken ctx here front choices a choices'

theorem advance_frontTaken (ctx : Setting) (node : Node) (front : Pending) (rest : List Pending)
    (choices choices' : List ChoicePoint) (j j' : Journal) (a : Advance)
    (h : advance ctx node front rest choices j = .ok (a, choices', j')) :
    j.Tells (fun r => a = .failed r) j' ∧
      FrontTaken ctx { node with pending := rest } front choices a choices' := by
  obtain ⟨j₁, before, hturn⟩ := advance_turn ctx node front rest choices j
  rw [hturn] at h
  obtain ⟨t, ht, h⟩ := (bind_eq_ok_iff _ _ _).mp h
  rw [ht] at before
  cases t with
  | proceed n =>
    cases h
    exact ⟨.remarks _ (before.unfailing (by rintro r ⟨⟩)), .proceed n ht⟩
  | failed r =>
    cases h
    exact ⟨before.mono (by rintro r ⟨⟩; rfl), .failed r⟩
  | fatal r =>
    cases h
    exact ⟨.remarks _ (before.unfailing (by rintro r ⟨⟩)), .fatal r (turn_fatal ctx _ front r ht)⟩
  | choose item depth methods =>
    obtain ⟨remarks, resumed⟩ := resume_resumed _ _ _ _ _ _ _ h
    have whole := (before.unfailing (by rintro r ⟨⟩)).trans remarks
    exact ⟨.remarks _ whole, .choose item depth methods a choices' ht resumed⟩

/-! ### The whole step -/

def Advance.node? : Advance → Option Node
  | .node n => some n
  | _ => none

/-- What a step comes to. A search that goes on has counted the step; one that ends has come to a
verdict of its own, not to the end of a budget. -/
inductive Stepped (ctx : Setting) (s : Search) : Progress → Prop
  | ended (v : Verdict) (untimed : v.timedOut = false) : Stepped ctx s (.done v s.journal)
  | back (p : ChoicePoint) (below choices : List ChoicePoint) (a : Advance) (last : Option Reason)
    (j : Journal) (hnode : s.node = none) (hchoices : s.choices = p :: below)
    (notes : s.journal.countStep.Notes j) (resumed : Resumed ctx p below a choices) :
    Stepped ctx s (.more { node := a.node?, choices, lastFailure := last, journal := j })
  | forward (n : Node) (front : Pending) (rest : List Pending) (choices : List ChoicePoint)
    (a : Advance) (last : Option Reason) (j : Journal) (hnode : s.node = some n)
    (hp : n.pending = front :: rest)
    (notes : (s.journal.countStep.reachDepth front.depth).Notes j)
    (advanced : FrontTaken ctx { n with pending := rest } front s.choices a choices) :
    Stepped ctx s (.more { node := a.node?, choices, lastFailure := last, journal := j })
  | fatal (n : Node) (front : Pending) (rest : List Pending) (v : Verdict) (j : Journal)
    (hnode : s.node = some n) (hp : n.pending = front :: rest)
    (notes : (s.journal.countStep.reachDepth front.depth).Notes j) (untimed : v.timedOut = false) :
    Stepped ctx s (.done v j)

namespace Search

theorem stepBack_stepped (ctx : Setting) (s : Search) (p : Progress) (hnode : s.node = none)
    (h : s.stepBack ctx = .ok p) : Stepped ctx s p := by
  unfold stepBack at h
  cases hc : s.choices with
  | nil =>
    rw [hc] at h
    cases h
    exact .ended _ rfl
  | cons point below =>
    rw [hc] at h
    obtain ⟨⟨a, choices, j⟩, hresume, h⟩ := (bind_eq_ok_iff _ _ _).mp h
    obtain ⟨remarks, resumed⟩ := resume_resumed _ _ _ _ _ _ _ hresume
    have stepped := fun last =>
      Stepped.back point below choices a last j hnode hc (Journal.Remarks.notes remarks) resumed
    cases resumed with
    | dropped r =>
      cases h
      exact stepped _
    | taken expansion untried fewer =>
      cases h
      exact stepped _

theorem stepForward_stepped (ctx : Setting) (s : Search) (n : Node) (p : Progress)
    (hnode : s.node = some n) (h : s.stepForward ctx n = .ok p) : Stepped ctx s p := by
  unfold stepForward at h
  cases hp : n.pending with
  | nil =>
    rw [hp] at h
    cases h
    exact .ended _ rfl
  | cons front rest =>
    rw [hp] at h
    obtain ⟨⟨a, choices, j⟩, hadvance, h⟩ := (bind_eq_ok_iff _ _ _).mp h
    obtain ⟨tells, advanced⟩ := advance_frontTaken _ _ _ _ _ _ _ _ _ hadvance
    have notes := tells.notes
    cases a with
    | node n' =>
      cases h
      exact .forward n front rest choices (.node n') _ j hnode hp notes advanced
    | failed r =>
      cases h
      exact .forward n front rest choices (.failed r) _ _ hnode hp
        (notes.tail (.backtracked _ r front)) advanced
    | fatal r =>
      cases h
      cases advanced with
      | fatal _ kind =>
        exact .fatal n front rest _ j hnode hp notes (by simp [Verdict.timedOut, kind])
      | choose _ _ _ _ _ _ resumed => cases resumed

theorem step_stepped (ctx : Setting) (s : Search) (p : Progress) (h : s.step ctx = .ok p) :
    Stepped ctx s p := by
  unfold step at h
  split at h
  · next hnode => exact stepBack_stepped ctx s p hnode h
  · next n hnode => exact stepForward_stepped ctx s n p hnode h

end Search

end Chronoplan
