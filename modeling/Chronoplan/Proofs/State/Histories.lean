import Mathlib.Data.Set.Card
import Chronoplan.Proofs.State.Keys
import Chronoplan.Proofs.Sorting

/-!
# Histories of a state

A state is loaded from facts and then edited. What it holds is what the history says: of every
fact the last entry, whichever way its key was spelled, if that is not a removal. The values that
an edit or a list of facts would leave are checked first, and nothing is written when one of them
is refused. A state that is enumerated and loaded again is an equal state.
-/

set_option autoImplicit false

namespace Chronoplan

/-! ### Tables of plain keys -/

namespace FactKey

theorem spelled : ∀ a b : FactKey, a.Plain → b.Plain → a.same b = (a.fact == b.fact) :=
  fun _ _ => same_eq_fact

section

variable {k : FactKey} {entries t : Table FactKey Value} (hk : k.Plain)
  (hes : ∀ e ∈ entries, e.1.Plain) (ht : ∀ e ∈ t, e.1.Plain)

include hk hes ht in
theorem find?_insertAll : (t.insertAll same entries).find? same k =
    (entries.last? same k).or (t.find? same k) := by
  rw [← find?_relabel spelled hk (forall_keys_insertAll hes ht), insertAll_relabel spelled hes ht,
    Chronoplan.find?_insertAll, last?_relabel spelled hk hes, find?_relabel spelled hk ht]

include hes ht in
theorem once_insertAll (once : (t.relabel fact).keys.Nodup) :
    ((t.insertAll same entries).relabel fact).keys.Nodup := by
  rw [insertAll_relabel spelled hes ht]
  exact keys_insertAll_nodup _ _ once

include hk ht in
theorem last?_of_once (once : (t.relabel fact).keys.Nodup) :
    t.last? same k = t.find? same k := by
  rw [← last?_relabel spelled hk ht, last?_of_nodup _ once, find?_relabel spelled hk ht]

include hk ht in
theorem find?_erase {j : FactKey} (hj : j.Plain) :
    (t.erase same j).find? same k = if j.same k then none else t.find? same k := by
  have rest : ∀ e ∈ t.erase same j, e.1.Plain := fun e he => ht e ((erase_sublist _ _ _).subset he)
  have erased := Table.find?_erase (· == ·) j.fact k.fact (t.relabel fact) (fun _ _ => BEq.comm)
    fun _ _ _ => BEq.trans
  rw [← find?_relabel spelled hk rest, erase_relabel spelled hj ht, erased, same_eq_fact hj hk,
    find?_relabel spelled hk ht]

include ht in
/-- No two of the keys are the same when they stand for different facts. -/
theorem apart_of_once (once : (t.relabel fact).keys.Nodup) :
    t.Pairwise fun e e' => e.1.same e'.1 = false := by
  rw [Table.keys, Table.relabel, List.map_map, List.Nodup, List.pairwise_map] at once
  refine once.imp_of_mem ?_
  intro e e' he he' other
  rw [same_eq_fact (ht e he) (ht e' he'), beq_eq_false_iff_ne]
  exact other

end

end FactKey

/-! ### Edits -/

/-- A write access to a state. -/
inductive Edit
  | set (k : FactKey) (v : Value)
  | update (changes : List (FactKey × Value))
  | remove (k : FactKey)

/-- The entries of a history: values that are written, and nothing for what is removed. -/
abbrev History := Table FactKey (Option Value)

/-- What a history leaves of a fact. -/
def History.latest (history : History) (k : FactKey) : Option Value :=
  (history.last? FactKey.same k).join

def recorded (entries : List (FactKey × Value)) : History := entries.map fun e => (e.1, some e.2)

namespace History

theorem last?_recorded (entries : List (FactKey × Value)) (k : FactKey) :
    (recorded entries).last? FactKey.same k = (Table.last? FactKey.same k entries).map some := by
  rw [Table.last?, recorded, ← List.map_reverse, Table.last?]
  induction entries.reverse with
  | nil => rfl
  | cons e rest ih =>
    rw [List.map_cons, Table.find?, Table.find?, ih]
    split <;> rfl

theorem latest_recorded (history : History) (entries : List (FactKey × Value)) (k : FactKey) :
    (history ++ recorded entries).latest k =
      (Table.last? FactKey.same k entries).or (history.latest k) := by
  rw [latest, last?_append, last?_recorded]
  cases Table.last? FactKey.same k entries <;> rfl

theorem latest_removed (history : History) (j k : FactKey) :
    (history ++ [(j, none)]).latest k = if j.same k then none else history.latest k := by
  have last : Table.last? FactKey.same k [(j, (none : Option Value))] =
    if j.same k then some none else none := rfl
  rw [latest, last?_append, last]
  split <;> rfl

theorem latest_append (history more : History) (k : FactKey)
    (other : ∀ c ∈ more, c.1.same k = false) : (history ++ more).latest k = history.latest k := by
  have none : more.last? FactKey.same k = none :=
    find?_eq_none _ _ _ fun c hc => other c (List.mem_reverse.mp hc)
  rw [latest, last?_append, none, Option.none_or]
  rfl

/-- The table has, fact by fact, what the history leaves. -/
structure Leaves (history : History) (t : Table FactKey Value) : Prop where
  plain : ∀ e ∈ t, e.1.Plain
  once : (t.relabel FactKey.fact).keys.Nodup
  stored : ∀ k : FactKey, k.Plain → t.find? FactKey.same k = history.latest k

theorem leaves_recorded (entries : List (FactKey × Value)) (plain : ∀ e ∈ entries, e.1.Plain) :
    (recorded entries).Leaves (Table.insertAll FactKey.same entries []) := by
  have none : ∀ e ∈ ([] : Table FactKey Value), e.1.Plain := by rintro _ ⟨⟩
  constructor
  · exact forall_keys_insertAll plain none
  · exact FactKey.once_insertAll plain none List.nodup_nil
  · intro k hk
    rw [FactKey.find?_insertAll hk plain none]
    exact (latest_recorded [] entries k).symm

section

variable {history : History} {t : Table FactKey Value}

/-- Written is what the changes come to among themselves. -/
theorem Leaves.write (h : history.Leaves t) (changes : List (FactKey × Value))
    (plain : ∀ c ∈ changes, c.1.Plain) : (history ++ recorded changes).Leaves
      (t.insertAll FactKey.same (Table.insertAll FactKey.same changes [])) := by
  have net := leaves_recorded changes plain
  constructor
  · exact forall_keys_insertAll net.plain h.plain
  · exact FactKey.once_insertAll net.plain h.plain h.once
  · intro k hk
    have found := (net.stored k hk).trans (latest_recorded [] changes k)
    rw [FactKey.find?_insertAll hk net.plain h.plain, FactKey.last?_of_once hk net.plain net.once,
      found, h.stored k hk, latest_recorded]
    exact congrArg (Option.or · _) Option.or_none

theorem Leaves.erase (h : history.Leaves t) (j : FactKey) (hj : j.Plain) :
    (history ++ [(j, none)]).Leaves (t.erase FactKey.same j) := by
  have fewer := erase_sublist FactKey.same j t
  constructor
  · exact fun e he => h.plain e (fewer.subset he)
  · exact h.once.sublist ((fewer.map _).map _)
  · intro k hk
    rw [FactKey.find?_erase hk h.plain hj, h.stored k hk, latest_removed]

theorem Leaves.find?_of_mem (h : history.Leaves t) {e : FactKey × Value} (he : e ∈ t) :
    t.find? FactKey.same e.1 = some e.2 :=
  Chronoplan.find?_of_mem FactKey.spelled h.plain h.once he

theorem Leaves.exists_of_latest (h : history.Leaves t) {k : FactKey} (hk : k.Plain) {v : Value}
    (left : history.latest k = some v) : ∃ e ∈ t, e.1.fact = k.fact ∧ e.2 = v := by
  rw [← h.stored k hk, ← find?_relabel FactKey.spelled hk h.plain] at left
  obtain ⟨e, he, same⟩ := List.mem_map.mp (mem_of_find? _ _ _ left)
  exact ⟨e, he, Prod.mk.inj same⟩

/-- A fact is listed when the history leaves something of it. -/
theorem Leaves.mem_keys_iff (h : history.Leaves t) (f : Fact) :
    f ∈ (t.relabel FactKey.fact).keys ↔
      ∃ k : FactKey, k.Plain ∧ k.fact = f ∧ (history.latest k).isSome := by
  rw [Table.keys, Table.relabel, List.map_map]
  constructor
  · intro hf
    obtain ⟨e, he, rfl⟩ := List.mem_map.mp hf
    refine ⟨e.1, h.plain e he, rfl, ?_⟩
    rw [← h.stored e.1 (h.plain e he), h.find?_of_mem he]
    rfl
  · rintro ⟨k, hk, rfl, present⟩
    obtain ⟨v, hv⟩ := Option.isSome_iff_exists.mp present
    obtain ⟨e, he, same, -⟩ := h.exists_of_latest hk hv
    exact List.mem_map.mpr ⟨e, he, same⟩

theorem Leaves.length (h : history.Leaves t) : t.length =
    {f | ∃ k : FactKey, k.Plain ∧ k.fact = f ∧ (history.latest k).isSome}.ncard := by
  have present : {f | ∃ k : FactKey, k.Plain ∧ k.fact = f ∧ (history.latest k).isSome} =
      ((t.relabel FactKey.fact).keys.toFinset : Set Fact) := by
    ext f
    rw [List.coe_toFinset]
    exact (h.mem_keys_iff f).symm
  rw [present, Set.ncard_coe_finset, List.toFinset_card_of_nodup h.once]
  simp [Table.keys, Table.relabel]

/-- The values of the table are those that the history leaves. -/
theorem Leaves.mem_values_iff (h : history.Leaves t) (v : Value) :
    (∃ e ∈ t, e.2 = v) ↔ ∃ k : FactKey, k.Plain ∧ history.latest k = some v := by
  constructor
  · rintro ⟨e, he, rfl⟩
    exact ⟨e.1, h.plain e he, by rw [← h.stored e.1 (h.plain e he), h.find?_of_mem he]⟩
  · rintro ⟨k, hk, left⟩
    obtain ⟨e, he, -, value⟩ := h.exists_of_latest hk left
    exact ⟨e, he, value⟩

end

end History

namespace Edit

def apply (s : State) : Edit → Except Fault State
  | .set k v => s.set k.category k.name k.entities v
  | .update changes => s.update changes
  | .remove k => s.remove k.category k.name k.entities

def entries : Edit → History
  | .set k v => recorded [(k, v)]
  | .update changes => recorded changes
  | .remove k => [(k, none)]

def Plain (e : Edit) : Prop := ∀ c ∈ e.entries, c.1.Plain

end Edit

/-- The first value that a state does not take. -/
def firstRefused (tuples : Bool) (entries : List (FactKey × Value)) : Option Value :=
  (entries.find? fun e => !State.accepts tuples e.2).map Prod.snd

/-- The outcome of a write, or the fault that its first refused value causes. -/
def unlessRefused {α : Type} (tuples : Bool) (entries : List (FactKey × Value)) (a : α) :
    Except Fault α :=
  match firstRefused tuples entries with
  | none => .ok a
  | some v => .error (State.refusal v)

theorem unlessRefused_eq_ok_iff {α : Type} (tuples : Bool) (entries : List (FactKey × Value))
    (a b : α) : unlessRefused tuples entries a = .ok b ↔
      (∀ e ∈ entries, State.accepts tuples e.2 = true) ∧ a = b := by
  have none : firstRefused tuples entries = none ↔
      ∀ e ∈ entries, State.accepts tuples e.2 = true := by
    simp [firstRefused]
  rw [← none, unlessRefused]
  cases firstRefused tuples entries <;> simp

theorem unlessRefused_error {α : Type} (tuples : Bool) (entries : List (FactKey × Value)) (a : α)
    (h : ∃ e ∈ entries, State.accepts tuples e.2 = false) :
    ∃ v, unlessRefused tuples entries a = .error (State.refusal v) ∧
      (∃ e ∈ entries, e.2 = v) ∧ State.accepts tuples v = false := by
  obtain ⟨e, he, refused⟩ := h
  cases hr : entries.find? (fun e => !State.accepts tuples e.2) with
  | none =>
    have accepted := List.find?_eq_none.mp hr e he
    simp [refused] at accepted
  | some e' =>
    refine ⟨e'.2, ?_, ⟨e', List.mem_of_find?_eq_some hr, rfl⟩, ?_⟩
    · rw [unlessRefused, firstRefused, hr]
      rfl
    · simpa using List.find?_some hr

theorem unlessRefused_cons {α : Type} (tuples : Bool) (e : FactKey × Value)
    (entries : List (FactKey × Value)) (a : α) : unlessRefused tuples (e :: entries) a = (do
      State.checkValue tuples e.2
      unlessRefused tuples entries a) := by
  unfold unlessRefused firstRefused State.checkValue
  rw [List.find?_cons]
  cases State.accepts tuples e.2 <;> rfl

namespace State

theorem checkAll_eq {α : Type} (tuples : Bool) (entries : List (FactKey × Value)) (a : α) :
    (do
      for c in entries do checkValue tuples c.2
      return a : Except Fault α) = unlessRefused tuples entries a := by
  induction entries with
  | nil => rfl
  | cons e entries ih =>
    rw [unlessRefused_cons, ← ih]
    simp

theorem update_eq (s : State) (changes : List (FactKey × Value))
    (plain : ∀ c ∈ changes, c.1.Plain) :
    s.update changes = unlessRefused s.acceptsTuples (Table.insertAll FactKey.same changes []) { s with
      facts := s.facts.insertAll FactKey.same (Table.insertAll FactKey.same changes []) } := by
  have keyed : changes.mapM (fun c => do return (← c.1.checked, c.2) :
      FactKey × Value → Except Fault (FactKey × Value)) = .ok changes := by
    refine (mapM_eq_ok_iff _ _ _).mpr (List.forall₂_same.mpr fun c hc => ?_)
    rw [(plain c hc).checked]
    rfl
  rw [update, keyed, ok_bind]
  exact checkAll_eq _ _ _

theorem set_eq (s : State) (k : FactKey) (v : Value) (plain : k.Plain) :
    s.set k.category k.name k.entities v = s.update [(k, v)] := by
  rw [update_eq s _ (by simpa using plain), unlessRefused, firstRefused]
  have checked : FactKey.checked ⟨k.category, k.name, k.entities⟩ = .ok k := plain.checked
  rw [set, checked, checkValue]
  cases h : accepts s.acceptsTuples v with
  | true => simp [Table.insertAll, Table.insert, h, write]
  | false => simp [Table.insertAll, Table.insert, h]

/-- The state holds what the history leaves, and only values that it takes. -/
structure Holds (tuples : Bool) (defaults : Table Value Value) (history : History) (s : State) :
    Prop where
  leaves : history.Leaves s.facts
  accepted : ∀ e ∈ s.facts, accepts tuples e.2 = true
  defaults : s.defaults = defaults
  tuples : s.acceptsTuples = tuples

theorem holds_loaded (tuples : Bool) (defaults : Table Value Value)
    (entries : List (FactKey × Value)) (plain : ∀ e ∈ entries, e.1.Plain)
    (accepted : ∀ e ∈ entries, accepts tuples e.2 = true) :
    Holds tuples defaults (recorded entries)
      { facts := Table.insertAll FactKey.same entries [], defaults, acceptsTuples := tuples } where
  leaves := History.leaves_recorded entries plain
  accepted := forall_values_insertAll (Q := (accepts tuples · = true)) accepted (by rintro _ ⟨⟩)
  defaults := rfl
  tuples := rfl

section

variable {tuples : Bool} {defaults : Table Value Value} {history : History} {s : State}

theorem Holds.write (h : s.Holds tuples defaults history) (changes : List (FactKey × Value))
    (plain : ∀ c ∈ changes, c.1.Plain)
    (accepted : ∀ c ∈ Table.insertAll FactKey.same changes [], accepts tuples c.2 = true) :
    Holds tuples defaults (history ++ recorded changes)
      { s with facts :=
          s.facts.insertAll FactKey.same (Table.insertAll FactKey.same changes []) } where
  leaves := h.leaves.write changes plain
  accepted := forall_values_insertAll (Q := (accepts tuples · = true)) accepted h.accepted
  defaults := h.defaults
  tuples := h.tuples

theorem Holds.erase (h : s.Holds tuples defaults history) (k : FactKey) (hk : k.Plain) :
    Holds tuples defaults (history ++ [(k, none)])
      { s with facts := s.facts.erase FactKey.same k } where
  leaves := h.leaves.erase k hk
  accepted := fun e he => h.accepted e ((erase_sublist _ _ _).subset he)
  defaults := h.defaults
  tuples := h.tuples

end

end State

namespace Edit

/-- What is written among the entries of an edit, each fact once. -/
def written : Edit → List (FactKey × Value)
  | .set k v => [(k, v)]
  | .update changes => Table.insertAll FactKey.same changes []
  | .remove _ => []

/-- The values that an edit would leave. -/
def Writes (e : Edit) (v : Value) : Prop := ∃ k : FactKey, k.Plain ∧ e.entries.latest k = some v

theorem Plain.of_recorded {changes : List (FactKey × Value)}
    (h : ∀ c ∈ recorded changes, c.1.Plain) : ∀ c ∈ changes, c.1.Plain :=
  fun c hc => h (c.1, some c.2) (List.mem_map_of_mem hc)

theorem mem_written_iff (e : Edit) (plain : e.Plain) (v : Value) :
    (∃ c ∈ e.written, c.2 = v) ↔ e.Writes v := by
  cases e with
  | set k v' => exact (History.leaves_recorded [(k, v')] (Plain.of_recorded plain)).mem_values_iff v
  | update changes =>
    exact (History.leaves_recorded changes (Plain.of_recorded plain)).mem_values_iff v
  | remove k =>
    have removed : ∀ j, History.latest [(k, none)] j = none := fun j => by
      refine (History.latest_removed [] k j).trans ?_
      split <;> rfl
    simp [written, Writes, entries, removed]

/-- An edit is made unless one of the values that it writes is refused. -/
theorem apply_cases (tuples : Bool) (defaults : Table Value Value) (history : History) (s : State)
    (h : s.Holds tuples defaults history) (e : Edit) (plain : e.Plain) :
    ∃ s' : State, e.apply s = unlessRefused tuples e.written s' ∧
      ((∀ c ∈ e.written, State.accepts tuples c.2 = true) →
        s'.Holds tuples defaults (history ++ e.entries)) := by
  obtain rfl := h.tuples
  cases e with
  | set k v =>
    have changes := Plain.of_recorded plain
    exact ⟨_, (State.set_eq s k v (by simpa using changes)).trans (State.update_eq s _ changes),
      h.write _ changes⟩
  | update changes =>
    exact ⟨_, State.update_eq s changes (Plain.of_recorded plain),
      h.write _ (Plain.of_recorded plain)⟩
  | remove k =>
    have hk : k.Plain := plain (k, none) List.mem_cons_self
    have checked : FactKey.checked ⟨k.category, k.name, k.entities⟩ = .ok k := hk.checked
    refine ⟨_, ?_, fun _ => h.erase k hk⟩
    rw [apply, State.remove, checked]
    rfl

end Edit

namespace State

/-! ### Loading -/

/-- The key and the value of a fact as it is written. -/
def written (fact : Value) : Except Fault (FactKey × Value) := do
  let (category, name, entities, v) ← factParts fact
  return (← FactKey.of category name entities, v)

theorem addFact_eq (tuples : Bool) (table : Table FactKey Value) (fact : Value)
    (e : FactKey × Value) (shaped : written fact = .ok e) (plain : e.1.Plain) :
    addFact tuples table fact = (do
      checkValue tuples e.2
      return table.insert FactKey.same e.1 e.2) := by
  obtain ⟨⟨category, name, entities, v⟩, parts, shaped⟩ := (bind_eq_ok_iff _ _ _).mp shaped
  obtain ⟨k, hk, shaped⟩ := (bind_eq_ok_iff _ _ _).mp shaped
  cases shaped
  rw [addFact, parts, ok_bind]
  simp only [hk, ok_bind, plain.checked]

/-- Facts are loaded unless one of their values is refused. -/
theorem foldlM_addFact (tuples : Bool) (facts : List Value) (loaded : List (FactKey × Value))
    (table : Table FactKey Value) (shaped : facts.mapM written = .ok loaded)
    (plain : ∀ e ∈ loaded, e.1.Plain) : facts.foldlM (addFact tuples) table =
      unlessRefused tuples loaded (table.insertAll FactKey.same loaded) := by
  have entries := (mapM_eq_ok_iff _ _ _).mp shaped
  clear shaped
  induction entries generalizing table with
  | nil => rfl
  | cons here _ ih =>
    obtain ⟨first, rest⟩ := List.forall_mem_cons.mp plain
    rw [List.foldlM_cons, addFact_eq tuples table _ _ here first, unlessRefused_cons, bind_assoc]
    simp only [pure_bind, ih _ rest]
    rfl

theorem ofFacts_eq (tuples : Bool) (facts : List Value) (loaded : List (FactKey × Value))
    (given : Value) (shaped : facts.mapM written = .ok loaded)
    (plain : ∀ e ∈ loaded, e.1.Plain) : ofFacts tuples facts given = (do
      unlessRefused tuples loaded ()
      return {
        facts := Table.insertAll FactKey.same loaded []
        defaults := ← defaultsOf given
        acceptsTuples := tuples }) := by
  rw [ofFacts, foldlM_addFact tuples facts loaded [] shaped plain]
  unfold unlessRefused
  cases firstRefused tuples loaded <;> rfl

end State

end Chronoplan
