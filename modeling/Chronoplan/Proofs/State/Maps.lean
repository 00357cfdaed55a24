import Chronoplan.Proofs.State.Histories
import Chronoplan.Proofs.State.Mappings

/-!
# States as maps

A state that is loaded from facts and edited is a finite map from facts to values, whichever way
the keys are spelled: no fact is stored twice, and reading, the number of facts and further edits
agree with the map. Enumerated and loaded again it is an equal state. Enumeration stops at an
integer in a key that has too many digits to be written.
-/

set_option autoImplicit false

namespace Chronoplan
namespace State

section

variable {tuples : Bool} {defaults : Table Value Value} {history : History} {s : State}

/-! ### Reading -/

theorem Holds.get (h : s.Holds tuples defaults history) (k : FactKey) (hk : k.Plain) :
    s.get k.category k.name k.entities =
      .ok ((history.latest k).getD ((defaults.find? Value.alike k.name).getD .null)) := by
  have checked : FactKey.checked ⟨k.category, k.name, k.entities⟩ = .ok k := hk.checked
  rw [State.get, checked, ok_bind, read, h.leaves.stored k hk, h.defaults]
  cases history.latest k <;> rfl

theorem Holds.has (h : s.Holds tuples defaults history) (k : FactKey) (hk : k.Plain) :
    s.has k.category k.name k.entities = .ok (history.latest k).isSome := by
  have checked : FactKey.checked ⟨k.category, k.name, k.entities⟩ = .ok k := hk.checked
  rw [State.has, checked, ok_bind, Table.contains, h.leaves.stored k hk]
  rfl

/-! ### Editing -/

/-- An edit that writes a value of the wrong kind stops with a fault, and any other is made. -/
theorem Holds.edit (h : s.Holds tuples defaults history) (e : Edit) (plain : e.Plain) :
    ((∀ v, e.Writes v → accepts tuples v = true) →
      ∃ s', e.apply s = .ok s' ∧ s'.Holds tuples defaults (history ++ e.entries)) ∧
    ∀ v, e.Writes v → accepts tuples v = false →
      ∃ v', e.apply s = .error (refusal v') ∧ e.Writes v' ∧ accepts tuples v' = false := by
  obtain ⟨s', made, holds⟩ := e.apply_cases tuples defaults history s h plain
  constructor
  · intro accepted
    have all : ∀ c ∈ e.written, accepts tuples c.2 = true :=
      fun c hc => accepted c.2 ((e.mem_written_iff plain c.2).mp ⟨c, hc, rfl⟩)
    exact ⟨s', made.trans ((unlessRefused_eq_ok_iff _ _ _ _).mpr ⟨all, rfl⟩), holds all⟩
  · intro v writes refused
    obtain ⟨c, hc, rfl⟩ := (e.mem_written_iff plain v).mpr writes
    obtain ⟨v', fault, written, refused'⟩ :=
      unlessRefused_error tuples e.written s' ⟨c, hc, refused⟩
    exact ⟨v', made.trans fault, (e.mem_written_iff plain v').mp written, refused'⟩

/-! ### Loading again -/

/-- A stored fact as it is loaded. -/
def asFact (e : FactKey × Value) : Value :=
  .tuple [e.1.category, e.1.name, .tuple e.1.entities, e.2]

theorem written_asFact (fs : List (FactKey × Value)) :
    (fs.map asFact).mapM written = .ok fs := by
  rw [mapM_eq_ok_iff, List.forall₂_map_left_iff]
  exact List.forall₂_same.mpr fun _ _ => rfl

theorem enumerate_of_titled {s : State} (titled : ∀ e ∈ s.facts, e.1.Titled)
    (writable : s.isWritable = true) :
    s.enumerate = .ok (stableSort (fun a b => a.1.isBefore b.1) s.facts) := by
  have orderable : s.orderable = true := by
    simp only [State.orderable, List.all_eq_true]
    intro a ha b hb
    rw [FactKey.before_eq (titled a ha) (titled b hb)]
  rw [State.enumerate, if_pos writable, if_pos orderable]

theorem enumerate_unwritable {s : State} (h : s.isWritable = false) :
    s.enumerate = .error .malformed := by
  rw [State.enumerate, h]
  rfl

theorem Holds.enumerate (h : s.Holds tuples defaults history) (writable : s.isWritable = true) :
    s.enumerate = .ok (stableSort (fun a b => a.1.isBefore b.1) s.facts) :=
  enumerate_of_titled (fun e he => (h.leaves.plain e he).titled) writable

theorem defaultsOf_dict (defaults : Table Value Value) :
    defaultsOf (.dict defaults) = .ok defaults := by
  cases defaults <;> rfl

/-- The same facts in another order are the same state. -/
theorem Holds.reload (h : s.Holds tuples defaults history) (fs : List (FactKey × Value))
    (perm : fs.Perm s.facts) (values : ∀ e ∈ s.facts, e.2.eq e.2 = true)
    (named : Named defaults) (self : ∀ e ∈ defaults, e.2.alike e.2 = true) :
    ∃ s', ofFacts tuples (fs.map asFact) (.dict defaults) = .ok s' ∧ s'.same s = true := by
  have plain : ∀ e ∈ fs, e.1.Plain := fun e he => h.leaves.plain e (perm.subset he)
  have accepted : unlessRefused tuples fs () = .ok () :=
    (unlessRefused_eq_ok_iff _ _ _ _).mpr ⟨fun e he => h.accepted e (perm.subset he), rfl⟩
  have once : (Table.relabel FactKey.fact fs).keys.Nodup :=
    ((perm.map _).map _).nodup_iff.mpr h.leaves.once
  have table : Table.insertAll FactKey.same fs [] = fs :=
    insertAll_of_apart FactKey.same fs [] (FactKey.apart_of_once plain once)
  refine ⟨{ facts := fs, defaults, acceptsTuples := tuples }, ?_, ?_⟩
  · rw [ofFacts_eq tuples _ fs _ (written_asFact fs) plain, accepted, defaultsOf_dict, table]
    rfl
  · rw [same, h.defaults, named.dict_eq_self self, Bool.and_true, sameFacts, Bool.and_eq_true,
      List.all_eq_true]
    refine ⟨beq_iff_eq.mpr perm.length_eq, fun e he => ?_⟩
    rw [h.leaves.find?_of_mem (perm.subset he)]
    exact Bool.or_eq_true_iff.mpr (.inl (values e (perm.subset he)))

end

/-! ### Reached states -/

/-- The states that are loaded from facts and edited, with their histories. -/
inductive Reached (tuples : Bool) (defaults : Table Value Value) : History → State → Prop
  | loaded (facts : List Value) (entries : List (FactKey × Value)) (given : Value) (s : State)
    (shaped : facts.mapM written = .ok entries) (plain : ∀ e ∈ entries, e.1.Plain)
    (reads : defaultsOf given = .ok defaults) (h : ofFacts tuples facts given = .ok s) :
    Reached tuples defaults (recorded entries) s
  | edited (history : History) (s s' : State) (e : Edit)
    (before : Reached tuples defaults history s) (plain : e.Plain) (h : e.apply s = .ok s') :
    Reached tuples defaults (history ++ e.entries) s'

/-- Loading and every edit keep to the history. -/
theorem Reached.holds {tuples : Bool} {defaults : Table Value Value} {history : History}
    {s : State} (h : Reached tuples defaults history s) : s.Holds tuples defaults history := by
  induction h with
  | loaded facts entries given s shaped plain reads h =>
    rw [ofFacts_eq tuples facts entries given shaped plain, reads] at h
    obtain ⟨_, checked, h⟩ := (bind_eq_ok_iff _ _ _).mp h
    cases h
    have accepted := ((unlessRefused_eq_ok_iff _ _ _ _).mp checked).1
    exact holds_loaded tuples defaults entries plain accepted
  | edited history s s' e before plain h ih =>
    obtain ⟨s₁, made, holds⟩ := e.apply_cases tuples defaults history s ih plain
    obtain ⟨accepted, rfl⟩ := (unlessRefused_eq_ok_iff _ _ _ _).mp (made.symm.trans h)
    exact holds accepted

/-- The state is the map that its history leaves. -/
structure Follows (tuples : Bool) (defaults : Table Value Value) (history : History) (s : State) :
    Prop where
  apart : s.facts.Pairwise fun e e' => e.1.same e'.1 = false
  get : ∀ k : FactKey, k.Plain → s.get k.category k.name k.entities =
    .ok ((history.latest k).getD ((defaults.find? Value.alike k.name).getD .null))
  has : ∀ k : FactKey, k.Plain →
    s.has k.category k.name k.entities = .ok (history.latest k).isSome
  size : s.size =
    {f | ∃ k : FactKey, k.Plain ∧ k.fact = f ∧ (history.latest k).isSome}.ncard
  edit : ∀ e : Edit, e.Plain → (∀ v, e.Writes v → accepts tuples v = true) →
    ∃ s', e.apply s = .ok s'
  /-- Nothing is made of an edit with a value of the wrong kind. -/
  refused : ∀ e : Edit, e.Plain → ∀ v, e.Writes v → accepts tuples v = false →
    ∃ v', e.apply s = .error (refusal v') ∧ e.Writes v' ∧ accepts tuples v' = false
  /-- Facts that an edit has no entry for are left as they are. -/
  frame : ∀ (e : Edit) (s' : State), e.Plain → e.apply s = .ok s' → ∀ k : FactKey, k.Plain →
    (∀ c ∈ e.entries, c.1.same k = false) →
    s'.get k.category k.name k.entities = s.get k.category k.name k.entities ∧
    s'.has k.category k.name k.entities = s.has k.category k.name k.entities
  /-- Values other than NaN are equal to themselves. -/
  reload : s.isWritable = true → (∀ e ∈ s.facts, e.2.eq e.2 = true) → Named defaults →
    (∀ e ∈ defaults, e.2.alike e.2 = true) → ∃ fs s', s.enumerate = .ok fs ∧
      ofFacts tuples (fs.map asFact) (.dict defaults) = .ok s' ∧ s'.same s = true
  /-- An entity has too many digits. -/
  unwritten : s.isWritable = false → s.enumerate = .error .malformed

/-- Facts of the right shape are loaded unless one has a value of the wrong kind, and a state that
was reached is the map that its history leaves. -/
theorem reached_follows (tuples : Bool) (defaults : Table Value Value) :
    (∀ facts entries given, facts.mapM written = .ok entries → (∀ e ∈ entries, e.1.Plain) →
      ((∀ e ∈ entries, accepts tuples e.2 = true) → defaultsOf given = .ok defaults →
        ∃ s, ofFacts tuples facts given = .ok s) ∧
      ((∃ e ∈ entries, accepts tuples e.2 = false) →
        ∃ v, ofFacts tuples facts given = .error (refusal v) ∧ accepts tuples v = false)) ∧
    ∀ history s, Reached tuples defaults history s → s.Follows tuples defaults history := by
  constructor
  · intro facts entries given shaped plain
    rw [ofFacts_eq tuples facts entries given shaped plain]
    constructor
    · intro accepted reads
      rw [(unlessRefused_eq_ok_iff _ _ _ ()).mpr ⟨accepted, rfl⟩, reads]
      exact ⟨_, rfl⟩
    · intro refused
      obtain ⟨v, fault, -, wrong⟩ := unlessRefused_error tuples entries () refused
      rw [fault]
      exact ⟨v, rfl, wrong⟩
  · intro history s reached
    have holds := reached.holds
    refine ⟨FactKey.apart_of_once holds.leaves.plain holds.leaves.once, holds.get, holds.has,
      holds.leaves.length, ?_, ?_, ?_, ?_, enumerate_unwritable⟩
    · intro e plain accepted
      obtain ⟨s', made, -⟩ := (holds.edit e plain).1 accepted
      exact ⟨s', made⟩
    · exact fun e plain => (holds.edit e plain).2
    · intro e s' plain made k hk other
      have holds' := (Reached.edited history s s' e reached plain made).holds
      have same := History.latest_append history e.entries k other
      rw [holds'.get k hk, holds.get k hk, holds'.has k hk, holds.has k hk, same]
      exact ⟨rfl, rfl⟩
    · intro writable values named self
      obtain ⟨s', made, same⟩ := holds.reload _ (stableSort_perm _ s.facts) values named self
      exact ⟨_, s', holds.enumerate writable, made, same⟩

end State

/-! ### A larder

The stock of the first shelf is written once with the number 1 and once with a truth value. -/

namespace Larder

def jam : FactKey := { category := defaultCategory, name := .str "open", entities := [.str "jam"] }

def first (shelf : Value) : FactKey :=
  { category := defaultCategory, name := .str "stock", entities := [shelf] }

def defaults : Table Value Value := [(.str "open", .bool false)]

def facts : List Value :=
  [.tuple [.str "stock", .int 1, .int 3],
    .list [.str "place", .str "keeps", .tuple [.str "jam", .int 2], .str "cool"]]

def loaded : List (FactKey × Value) :=
  [(first (.int 1), .int 3),
    ({ category := .str "place", name := .str "keeps", entities := [.str "jam", .int 2] },
      .str "cool")]

def delivery : Edit := .update [(first (.bool true), .int 5), (jam, .bool true)]

def history : History := recorded loaded ++ delivery.entries ++ (Edit.remove jam).entries

def state : Except Fault State := do
  let s ← State.ofFacts false facts (.dict defaults)
  (Edit.remove jam).apply (← delivery.apply s)

theorem first_plain (shelf : Value) (h : shelf.isEntity = true) : (first shelf).Plain :=
  ⟨⟨_, rfl⟩, ⟨_, rfl⟩, by simpa [first] using h⟩

theorem jam_plain : jam.Plain := ⟨⟨_, rfl⟩, ⟨_, rfl⟩, by simp [jam, Value.isEntity]⟩

theorem defaults_named : Named defaults :=
  ⟨by simp [defaults, Value.IsText], List.nodup_singleton _⟩

theorem state_reached (s : State) (h : state = .ok s) : s.Reached false defaults history := by
  obtain ⟨s₀, h₀, h⟩ := (bind_eq_ok_iff _ _ _).mp h
  obtain ⟨s₁, h₁, h⟩ := (bind_eq_ok_iff _ _ _).mp h
  refine .edited _ s₁ s (.remove jam) (.edited _ s₀ s₁ delivery
    (.loaded facts loaded (.dict defaults) s₀ rfl ?_ rfl h₀) ?_ h₁) ?_ h
  · simp only [loaded, List.forall_mem_cons]
    exact ⟨first_plain _ rfl, ⟨⟨_, rfl⟩, ⟨_, rfl⟩, by simp [Value.isEntity]⟩, by rintro _ ⟨⟩⟩
  · simp only [Edit.Plain, Edit.entries, delivery, recorded, List.map_cons, List.map_nil,
      List.forall_mem_cons]
    exact ⟨first_plain _ rfl, jam_plain, by rintro _ ⟨⟩⟩
  · simpa [Edit.Plain, Edit.entries] using jam_plain

theorem restocked : ∃ s : State, s.Reached false defaults history ∧
    s.Follows false defaults history ∧ s.size = 2 ∧
    s.get defaultCategory (.str "stock") [.int 1] = .ok (.int 5) ∧
    s.get defaultCategory (.str "stock") [.bool true] = .ok (.int 5) ∧
    s.get defaultCategory (.str "open") [.str "jam"] = .ok (.bool false) ∧
    ∃ fs s', s.enumerate = .ok fs ∧
      State.ofFacts false (fs.map State.asFact) (.dict defaults) = .ok s' ∧ s'.same s = true := by
  have reading : state.toOption.map (fun s => (s.size, s.isWritable,
      s.facts.all fun e => e.2.eq e.2)) = some (2, true, true) := by decide +kernel
  have latest : ((history.latest (first (.int 1))).bind Value.number?,
      (history.latest (first (.bool true))).bind Value.number?, (history.latest jam).isNone) =
      (some (.int 5), some (.int 5), true) := by decide +kernel
  simp only [Prod.mk.injEq, Option.isNone_iff_eq_none] at latest
  obtain ⟨stock, stock', closed⟩ := latest
  obtain ⟨s, hs, reading⟩ := Option.map_eq_some_iff.mp reading
  simp only [Prod.mk.injEq] at reading
  obtain ⟨size, writable, values⟩ := reading
  have reached := state_reached s (toOption_eq_some_iff.mp hs)
  have follows := (State.reached_follows false defaults).2 history s reached
  have number : ∀ (k : FactKey) (n : Number), k.Plain →
      (history.latest k).bind Value.number? = some n →
      s.get k.category k.name k.entities = .ok (.num n) := by
    intro k n hk hn
    obtain ⟨v, hv, hn⟩ := Option.bind_eq_some_iff.mp hn
    rw [follows.get k hk, hv]
    cases v <;> cases hn
    rfl
  refine ⟨s, reached, follows, size, number _ _ (first_plain _ rfl) stock,
    number _ _ (first_plain _ rfl) stock', ?_, ?_⟩
  · have absent := follows.get jam jam_plain
    rw [closed] at absent
    exact absent.trans (by simp [jam, defaults, Table.find?])
  · refine follows.reload writable (by simpa using values) defaults_named ?_
    simp [defaults, Value.alike, Number.eq, Number.place?]

/-! ### A shelf of many digits -/

def numbered (n : Int) : State :=
  { facts := [(first (.int n), .int 3)], defaults := [], acceptsTuples := false }

theorem numbered_reached (n : Int) :
    (numbered n).Reached false [] (recorded [(first (.int n), .int 3)]) := by
  refine .loaded [State.asFact (first (.int n), .int 3)] _ .null _ rfl ?_ rfl rfl
  simpa using first_plain (.int n) rfl

section

variable {n : Int} (long : (Value.int n).isWritable = false)
include long

theorem numbered_unwritten : (numbered n).enumerate = .error .malformed := by
  apply State.enumerate_unwritable
  simp [numbered, State.isWritable, first, Value.areWritable, long]

theorem listed_refused :
    (Edit.set jam (.list [.int n])).apply State.empty = .error .malformed := by
  have unwritable : (Value.list [.int n]).isWritable = false := by
    rw [Value.isWritable, Value.areWritable, long, Bool.false_and]
  simp [Edit.apply, State.set, State.checkValue, State.accepts, State.refusal, unwritable]

end

/-- One digit more than can be written. -/
def longNumber : Int := 10 ^ mostDigits

/-- A shelf with this number is stocked but not enumerated, and a list with it is refused without
being shown. -/
theorem shelf_unwritten :
    ((numbered longNumber).Reached false [] (recorded [(first (.int longNumber), .int 3)]) ∧
      (∀ e ∈ (numbered longNumber).facts, e.2.eq e.2 = true) ∧
      (numbered longNumber).enumerate = .error .malformed) ∧
    (Edit.set jam (.list [.int longNumber])).apply State.empty = .error .malformed := by
  have long : (Value.int longNumber).isWritable = false := by
    rw [Bool.eq_false_iff, Ne, Value.isWritable_entity_iff rfl]
    intro short
    have below := short _ rfl
    have ten : (10 : Int).natAbs = 10 := rfl
    rw [longNumber, Int.natAbs_pow, ten] at below
    exact lt_irrefl _ below
  refine ⟨⟨numbered_reached _, ?_, numbered_unwritten long⟩, listed_refused long⟩
  simp [numbered, Number.eq]

end Larder

end Chronoplan
