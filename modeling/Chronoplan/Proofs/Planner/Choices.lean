import Chronoplan.Proofs.Planner.Exploration

/-!
# Sequences of choices

A sequence of choices says at every branch point which method to take, and so leaves a single
branch. Exploration fails exactly when every sequence fails; otherwise it ends like the first
sequence, in lexicographic order, that does not fail, be its ending a plan, a fatal failure or a
fault. The first sequence is unique up to choices that are never made.
-/

set_option autoImplicit false

namespace Chronoplan
open Exploration

def Fails (e : Except Fault Ending) : Prop := ∃ r, e = .ok (.failed r)

/-- Lexicographic order of sequences of choices. -/
def Earlier (a b : ℕ → ℕ) : Prop := ∃ i, (∀ k < i, a k = b k) ∧ a i < b i

/-- The ending of the first sequence of choices that does not fail. -/
def FirstEnding (ctx : Setting) (node : Node) (e : Except Fault Ending) : Prop :=
  ¬ Fails e ∧ ∃ choice, follow ctx choice node = e ∧
    ∀ other, Earlier other choice → Fails (follow ctx other node)

theorem not_fails_found (n : Node) : ¬ Fails (.ok (.found n)) := by
  intro h
  obtain ⟨r, hr⟩ := h
  cases hr

theorem not_fails_fatal (r : Reason) : ¬ Fails (.ok (.fatal r)) := by
  intro h
  obtain ⟨r', hr⟩ := h
  cases hr

theorem not_fails_error (e : Fault) : ¬ Fails (.error e) := by
  intro h
  obtain ⟨r, hr⟩ := h
  cases hr

theorem earlier_trichotomy (a b : ℕ → ℕ) : a = b ∨ Earlier a b ∨ Earlier b a := by
  by_cases h : a = b
  · exact .inl h
  · have hd : ∃ i, a i ≠ b i := Function.ne_iff.mp h
    have same : ∀ k < Nat.find hd, a k = b k := fun k hk => not_not.mp (Nat.find_min hd hk)
    rcases Nat.lt_or_gt_of_ne (Nat.find_spec hd) with hlt | hgt
    · exact .inr (.inl ⟨Nat.find hd, same, hlt⟩)
    · exact .inr (.inr ⟨Nat.find hd, fun k hk => (same k hk).symm, hgt⟩)

theorem firstEnding_unique (ctx : Setting) (node : Node) (e e' : Except Fault Ending)
    (h : FirstEnding ctx node e) (h' : FirstEnding ctx node e') : e = e' := by
  obtain ⟨hne, a, rfl, ha⟩ := h
  obtain ⟨hne', b, rfl, hb⟩ := h'
  rcases earlier_trichotomy a b with rfl | hab | hba
  · rfl
  · exact absurd (hb a hab) hne
  · exact absurd (ha b hba) hne'

theorem explore_nil (ctx : Setting) (node : Node) (hp : node.pending = []) :
    explore ctx node = .ok (.found node) := by
  rw [explore]
  split
  · rfl
  · next h => rw [h] at hp; cases hp

theorem follow_nil (ctx : Setting) (choice : ℕ → ℕ) (node : Node) (hp : node.pending = []) :
    follow ctx choice node = .ok (.found node) := by
  rw [follow]
  split
  · rfl
  · next h => rw [h] at hp; cases hp

theorem explore_cons (ctx : Setting) (node : Node) (front : Pending) (rest : List Pending)
    (hp : node.pending = front :: rest) :
    explore ctx node =
      match turn ctx { node with pending := rest } front with
      | .error e => .error e
      | .ok (.failed r) => .ok (.failed r)
      | .ok (.fatal r) => .ok (.fatal r)
      | .ok (.proceed n) => explore ctx n
      | .ok (.choose item depth methods) =>
        firstEnding item node.state (fun expansion =>
          explore ctx (refined ctx { node with pending := rest } item depth expansion))
          (noApplicable item) methods := by
  rw [explore]
  split
  · next h => rw [h] at hp; cases hp
  · next h =>
    rw [h] at hp
    cases hp
    split <;> next ht => rw [ht]

theorem follow_cons (ctx : Setting) (choice : ℕ → ℕ) (node : Node) (front : Pending)
    (rest : List Pending) (hp : node.pending = front :: rest) :
    follow ctx choice node =
      match turn ctx { node with pending := rest } front with
      | .error e => .error e
      | .ok (.failed r) => .ok (.failed r)
      | .ok (.fatal r) => .ok (.fatal r)
      | .ok (.proceed n) => follow ctx choice n
      | .ok (.choose item depth methods) =>
        endingOf item node.state (fun expansion => follow ctx (fun i => choice (i + 1))
          (refined ctx { node with pending := rest } item depth expansion))
          (noApplicable item) methods[choice 0]? := by
  rw [follow]
  split
  · next h => rw [h] at hp; cases hp
  · next h =>
    rw [h] at hp
    cases hp
    split <;> next ht => rw [ht]

/-- A branch leads from a node to an ending: one turn after the other, with the refinement of one
method at a branch point. Where a branch fails is left open. -/
inductive Arrives (ctx : Setting) : Node → Ending → Prop
  | found (node : Node) (hp : node.pending = []) : Arrives ctx node (.found node)
  | failed (node : Node) (r : Reason) : Arrives ctx node (.failed r)
  | fatal (node : Node) (front : Pending) (rest : List Pending) (r : Reason)
      (hp : node.pending = front :: rest)
      (ht : turn ctx { node with pending := rest } front = .ok (.fatal r)) :
      Arrives ctx node (.fatal r)
  | proceed (node n : Node) (front : Pending) (rest : List Pending) (ending : Ending)
      (hp : node.pending = front :: rest)
      (ht : turn ctx { node with pending := rest } front = .ok (.proceed n)) :
      Arrives ctx n ending → Arrives ctx node ending
  | refined (node : Node) (front : Pending) (rest : List Pending) (item : WorkItem) (depth : Nat)
      (methods : List Candidate) (m : Candidate) (expansion : List Entry) (ending : Ending)
      (hp : node.pending = front :: rest)
      (ht : turn ctx { node with pending := rest } front = .ok (.choose item depth methods))
      (hm : m ∈ methods) (hr : m.refinement item node.state = .ok (some expansion)) :
      Arrives ctx (Exploration.refined ctx { node with pending := rest } item depth expansion)
        ending → Arrives ctx node ending

theorem follow_arrives (ctx : Setting) (choice : ℕ → ℕ) (node : Node) (ending : Ending)
    (h : follow ctx choice node = .ok ending) : Arrives ctx node ending := by
  induction choice, node using follow.induct with
  | ctx => exact ctx
  | case1 choice node hp =>
    rw [follow_nil ctx choice node hp] at h
    cases h
    exact .found node hp
  | case2 choice node front rest hp e ht =>
    rw [follow_cons ctx choice node front rest hp, ht] at h
    cases h
  | case3 choice node front rest hp r ht =>
    rw [follow_cons ctx choice node front rest hp, ht] at h
    cases h
    exact .failed node r
  | case4 choice node front rest hp r ht =>
    rw [follow_cons ctx choice node front rest hp, ht] at h
    cases h
    exact .fatal node front rest r hp ht
  | case5 choice node front rest hp n ht ih =>
    rw [follow_cons ctx choice node front rest hp, ht] at h
    exact .proceed node n front rest ending hp ht (ih h)
  | case6 choice node front rest hp item depth methods ht ih =>
    rw [follow_cons ctx choice node front rest hp, ht] at h
    cases hm : methods[choice 0]? with
    | none =>
      simp only [hm] at h
      cases h
      exact .failed node _
    | some m =>
      simp only [hm] at h
      obtain ⟨offered, hr, h⟩ := (bind_eq_ok_iff _ _ _).mp h
      cases offered with
      | none =>
        cases h
        exact .failed node _
      | some expansion =>
        exact .refined node front rest item depth methods m expansion ending hp ht
          (List.mem_of_getElem? hm) hr (ih expansion h)

theorem retry_of_not_fails (e : Except Fault Ending) (again : Reason → Except Fault Ending)
    (h : ¬ Fails e) : retry e again = e := by
  cases e with
  | error e => rfl
  | ok ending =>
    cases ending with
    | failed r => exact absurd ⟨r, rfl⟩ h
    | _ => rfl

/-- The sequence with a given first choice. -/
def startWith (i : ℕ) (later : ℕ → ℕ) : ℕ → ℕ
  | 0 => i
  | k + 1 => later k

theorem earlier_startWith (other later : ℕ → ℕ) (i : ℕ) (h : Earlier other (startWith i later)) :
    other 0 < i ∨ other 0 = i ∧ Earlier (fun k => other (k + 1)) later := by
  obtain ⟨k, same, less⟩ := h
  cases k with
  | zero => exact .inl less
  | succ k => exact .inr ⟨same 0 (by omega), k, fun l hl => same (l + 1) (by omega), less⟩

/-- An ending of a node is the one that sequences of choices give it. -/
def Chosen (ctx : Setting) (node : Node) (e : Except Fault Ending) : Prop :=
  (Fails e ∧ ∀ choice, Fails (follow ctx choice node)) ∨ FirstEnding ctx node e

section Branching

variable (ctx : Setting) (node here : Node) (item : WorkItem) (depth : Nat)
  (methods : List Candidate)

/-- The node is about to choose among methods. -/
def Branches : Prop :=
  ∀ choice, follow ctx choice node =
    endingOf item node.state (fun expansion => follow ctx (fun i => choice (i + 1))
      (refined ctx here item depth expansion)) (noApplicable item) methods[choice 0]?

/-- Every sequence that begins with one of the first `k` methods fails. -/
def FailsBelow (k : ℕ) : Prop := ∀ choice, choice 0 < k → Fails (follow ctx choice node)

variable {ctx node here item depth methods}

theorem failsBelow_succ (k : ℕ) (h : FailsBelow ctx node k)
    (hk : ∀ choice, choice 0 = k → Fails (follow ctx choice node)) : FailsBelow ctx node (k + 1) := by
  intro choice hc
  rcases Nat.lt_succ_iff_lt_or_eq.mp hc with hlt | heq
  · exact h choice hlt
  · exact hk choice heq

/-- The first sequence at a branch point, when the methods before number `k` all fail and method
`k` leads to an ending that is no failure. -/
theorem firstEnding_at (e : Except Fault Ending) (k : ℕ) (later : ℕ → ℕ)
    (h : FailsBelow ctx node k) (he : ¬ Fails e) (hk : follow ctx (startWith k later) node = e)
    (hlater : ∀ other, other 0 = k → Earlier (fun i => other (i + 1)) later →
      Fails (follow ctx other node)) : FirstEnding ctx node e := by
  refine ⟨he, startWith k later, hk, ?_⟩
  intro other ho
  rcases earlier_startWith other later k ho with hlt | ⟨heq, hearlier⟩
  · exact h other hlt
  · exact hlater other heq hearlier

/-- The untried methods decide once those before them have failed. The induction is on the
untried methods, and a method that fails moves to the front part. -/
theorem chosen_firstEnding (hb : Branches ctx node here item depth methods)
    (ih : ∀ expansion, Chosen ctx (refined ctx here item depth expansion)
      (explore ctx (refined ctx here item depth expansion)))
    (tried rest : List Candidate) (last : Reason) (hm : methods = tried ++ rest)
    (h : FailsBelow ctx node tried.length) :
    Chosen ctx node (firstEnding item node.state
      (fun expansion => explore ctx (refined ctx here item depth expansion)) last rest) := by
  induction rest generalizing tried last with
  | nil =>
    refine .inl ⟨⟨last, rfl⟩, fun choice => ?_⟩
    by_cases hc : choice 0 < tried.length
    · exact h choice hc
    · refine ⟨noApplicable item, ?_⟩
      rw [hb choice, hm, List.getElem?_eq_none (by simpa using hc)]
      rfl
  | cons m rest ihr =>
    have at_m : ∀ choice : ℕ → ℕ, choice 0 = tried.length → follow ctx choice node =
        endingOf item node.state (fun expansion => follow ctx (fun i => choice (i + 1))
          (refined ctx here item depth expansion)) (noApplicable item) (some m) := by
      intro choice hc
      rw [hb choice, hc, hm]
      simp
    have next : ∀ r, (∀ choice : ℕ → ℕ, choice 0 = tried.length → Fails (follow ctx choice node)) →
        Chosen ctx node (firstEnding item node.state
          (fun expansion => explore ctx (refined ctx here item depth expansion)) r rest) := by
      intro r hk
      refine ihr (tried ++ [m]) r (by simp [hm]) ?_
      rw [List.length_append]
      exact failsBelow_succ _ h hk
    cases hr : m.refinement item node.state with
    | error e =>
      have hf : ∀ solve l, firstEnding item node.state solve l (m :: rest) = .error e := by
        intro solve l
        simp [firstEnding, hr]
      rw [hf]
      refine .inr (firstEnding_at _ tried.length (fun _ => 0) h (not_fails_error e) ?_ ?_)
      · rw [at_m _ rfl]
        simp [endingOf, hr]
      · rintro other - ⟨i, -, hi⟩
        exact absurd hi (Nat.not_lt_zero _)
    | ok offered =>
      cases offered with
      | none =>
        simp only [firstEnding, hr, ok_bind]
        refine next last fun choice hc => ⟨noApplicable item, ?_⟩
        rw [at_m choice hc]
        simp [endingOf, hr]
      | some expansion =>
        have through : ∀ choice : ℕ → ℕ, choice 0 = tried.length → follow ctx choice node =
            follow ctx (fun i => choice (i + 1)) (refined ctx here item depth expansion) := by
          intro choice hc
          rw [at_m choice hc]
          simp [endingOf, hr]
        rcases ih expansion with ⟨⟨r, hf⟩, hall⟩ | ⟨he, later, hl, hlater⟩
        · simp only [firstEnding, hr, hf, ok_bind, retry]
          refine next r fun choice hc => ?_
          rw [through choice hc]
          exact hall _
        · simp only [firstEnding, hr, ok_bind, retry_of_not_fails _ _ he]
          refine .inr (firstEnding_at _ tried.length later h he ?_ ?_)
          · rw [through _ rfl]
            exact hl
          · intro other ho hearlier
            rw [through other ho]
            exact hlater _ hearlier

end Branching

theorem chosen_of_same (ctx : Setting) (node : Node) (e : Except Fault Ending)
    (h : ∀ choice, follow ctx choice node = e) : Chosen ctx node e := by
  by_cases he : Fails e
  · exact .inl ⟨he, fun choice => h choice ▸ he⟩
  · refine .inr ⟨he, fun _ => 0, h _, ?_⟩
    rintro other ⟨i, -, hi⟩
    exact absurd hi (Nat.not_lt_zero _)

/-- Exploration is an outcome of sequences of choices. The induction is on the work left: only a
branch point has more than one sequence to look at. -/
theorem explore_chosen (ctx : Setting) (node : Node) : Chosen ctx node (explore ctx node) := by
  induction node using explore.induct with
  | ctx => exact ctx
  | case1 node hp =>
    rw [explore_nil ctx node hp]
    exact chosen_of_same ctx node _ fun choice => follow_nil ctx choice node hp
  | case2 node front rest hp e ht =>
    rw [explore_cons ctx node front rest hp, ht]
    refine chosen_of_same ctx node _ fun choice => ?_
    rw [follow_cons ctx choice node front rest hp, ht]
  | case3 node front rest hp r ht =>
    rw [explore_cons ctx node front rest hp, ht]
    refine chosen_of_same ctx node _ fun choice => ?_
    rw [follow_cons ctx choice node front rest hp, ht]
  | case4 node front rest hp r ht =>
    rw [explore_cons ctx node front rest hp, ht]
    refine chosen_of_same ctx node _ fun choice => ?_
    rw [follow_cons ctx choice node front rest hp, ht]
  | case5 node front rest hp n ht ih =>
    have same : ∀ choice, follow ctx choice node = follow ctx choice n := by
      intro choice
      rw [follow_cons ctx choice node front rest hp, ht]
    rw [explore_cons ctx node front rest hp, ht]
    simpa only [Chosen, FirstEnding, same] using ih
  | case6 node front rest hp item depth methods ht ih =>
    rw [explore_cons ctx node front rest hp, ht]
    refine chosen_firstEnding ?_ ih [] methods (noApplicable item) rfl ?_
    · intro choice
      rw [follow_cons ctx choice node front rest hp, ht]
      rfl
    · intro choice hc
      exact absurd hc (Nat.not_lt_zero _)

/-- Exploration fails exactly when every sequence of choices does. -/
theorem explore_fails_iff (ctx : Setting) (node : Node) :
    Fails (explore ctx node) ↔ ∀ choice, Fails (follow ctx choice node) := by
  constructor
  · intro h
    rcases explore_chosen ctx node with ⟨-, hall⟩ | ⟨he, -⟩
    · exact hall
    · exact absurd h he
  · intro h
    rcases explore_chosen ctx node with ⟨hf, -⟩ | ⟨-, choice, he, -⟩
    · exact hf
    · exact he ▸ h choice

/-- Any other ending is that of the first sequence that does not fail. -/
theorem explore_eq_iff (ctx : Setting) (node : Node) (e : Except Fault Ending) (he : ¬ Fails e) :
    explore ctx node = e ↔ FirstEnding ctx node e := by
  constructor
  · rintro rfl
    rcases explore_chosen ctx node with ⟨hf, -⟩ | hfirst
    · exact absurd hf he
    · exact hfirst
  · intro h
    rcases explore_chosen ctx node with ⟨-, hall⟩ | hfirst
    · obtain ⟨-, choice, hc, -⟩ := h
      exact absurd (hc ▸ hall choice) he
    · exact firstEnding_unique ctx node _ _ hfirst h

end Chronoplan
