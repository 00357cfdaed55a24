import Mathlib.Data.Int.Notation
import Mathlib.Data.List.Lex
import Mathlib.Data.Prod.Lex
import Mathlib.Data.Rat.Cast.Order
import Mathlib.Data.String.Basic
import Chronoplan.State
import Chronoplan.Proofs.Faults
import Chronoplan.Proofs.Tables

/-!
# Keys of facts

Keys are compared as values, so a truth value in a key is the number 0 or 1. What a key stands for
is its category, its name and its entities up to such spellings, and two keys are the same when
they stand for the same fact. The table of a state, with its keys replaced by what they stand for,
is a table of the usual kind.
-/

set_option autoImplicit false

namespace Chronoplan

/-- What an entity stands for. -/
inductive Entity
  | nothing
  | number (n : ℤ)
  | word (s : String)
deriving DecidableEq

/-- What the key of a fact stands for. -/
structure Fact where
  category : String
  name : String
  entities : List Entity
deriving DecidableEq

namespace Value

/-- Texts, integers, truth values and null are entities. -/
def isEntity : Value → Bool
  | .null => true
  | .num (.bool _) => true
  | .num (.int _) => true
  | .str _ => true
  | _ => false

def entity : Value → Entity
  | .num (.bool b) => .number (if b then 1 else 0)
  | .num (.int n) => .number n
  | .str s => .word s
  | _ => .nothing

/-- The ways to spell an entity. -/
theorem isEntity_cases {v : Value} (h : v.isEntity = true) :
    v = .null ∨ (∃ b, v = .bool b) ∨ (∃ n, v = .int n) ∨ ∃ s, v = .str s := by
  unfold isEntity at h
  split at h <;> simp_all

/-- An entity is written unless it is an integer of too many digits. -/
theorem isWritable_entity_iff {v : Value} (h : v.isEntity = true) :
    v.isWritable = true ↔ ∀ n, v = .int n → n.natAbs < 10 ^ mostDigits := by
  obtain rfl | ⟨b, rfl⟩ | ⟨n, rfl⟩ | ⟨s, rfl⟩ := isEntity_cases h
  case inr.inr.inl =>
    rw [isWritable, Number.isWritable, decide_eq_true_eq, decimalWidth,
      Nat.length_toDigits_le_iff (by decide) (by decide)]
    simp
  all_goals simp [isWritable, Number.isWritable]

theorem alike_eq_entity (a b : Value) (ha : a.isEntity = true) (hb : b.isEntity = true) :
    a.alike b = (a.entity == b.entity) := by
  rw [Bool.eq_iff_iff, beq_iff_eq]
  obtain rfl | ⟨x, rfl⟩ | ⟨m, rfl⟩ | ⟨s, rfl⟩ := isEntity_cases ha <;>
    obtain rfl | ⟨y, rfl⟩ | ⟨n, rfl⟩ | ⟨t, rfl⟩ := isEntity_cases hb
  case inr.inl.inr.inl =>
    cases x <;> cases y <;> simp [alike, Number.eq, Number.place?, sameNaN, entity]
  case inr.inl.inr.inr.inl =>
    cases x <;> simp [alike, Number.eq, Number.place?, sameNaN, entity] <;> norm_cast
  case inr.inr.inl.inr.inl =>
    cases y <;> simp [alike, Number.eq, Number.place?, sameNaN, entity]
  all_goals simp [alike, eq, sameNaN, entity]

theorem eqAll_eq_entities (as bs : List Value) (has : ∀ a ∈ as, a.isEntity = true)
    (hbs : ∀ b ∈ bs, b.isEntity = true) : eqAll as bs = (as.map entity == bs.map entity) := by
  induction as generalizing bs with
  | nil => cases bs <;> simp [eqAll]
  | cons a as ih =>
    cases bs with
    | nil => simp [eqAll]
    | cons b bs =>
      obtain ⟨ha, rest⟩ := List.forall_mem_cons.mp has
      obtain ⟨hb, rest'⟩ := List.forall_mem_cons.mp hbs
      have head := alike_eq_entity a b ha hb
      rw [alike] at head
      rw [eqAll, head, ih bs rest rest']
      rfl

end Value

namespace FactKey

/-- The category and the name are texts, and the entities are plain values. -/
structure Plain (k : FactKey) : Prop where
  category : ∃ c, k.category = .str c
  name : ∃ n, k.name = .str n
  entities : ∀ e ∈ k.entities, e.isEntity = true

def fact (k : FactKey) : Fact :=
  { category := k.category.text, name := k.name.text, entities := k.entities.map Value.entity }

/-- Plain keys are the same when they stand for the same fact. -/
theorem same_eq_fact {a b : FactKey} (ha : a.Plain) (hb : b.Plain) :
    a.same b = (a.fact == b.fact) := by
  obtain ⟨c, hc⟩ := ha.category
  obtain ⟨n, hn⟩ := ha.name
  obtain ⟨c', hc'⟩ := hb.category
  obtain ⟨n', hn'⟩ := hb.name
  rw [same, hc, hn, hc', hn', Value.alike_str, Value.alike_str,
    Value.eqAll_eq_entities _ _ ha.entities hb.entities, Bool.eq_iff_iff]
  simp [fact, hc, hn, hc', hn', Value.text, and_assoc]

theorem Plain.checked {k : FactKey} (h : k.Plain) : k.checked = .ok k := by
  obtain ⟨c, hc⟩ := h.category
  obtain ⟨n, hn⟩ := h.name
  have parts : ∀ vs : List Value, (∀ v ∈ vs, v.isEntity = true) → Value.areKeys vs = true := by
    intro vs hvs
    induction vs with
    | nil => simp [Value.areKeys]
    | cons v vs ih =>
      obtain ⟨hv, rest⟩ := List.forall_mem_cons.mp hvs
      obtain rfl | ⟨x, rfl⟩ | ⟨m, rfl⟩ | ⟨s, rfl⟩ := Value.isEntity_cases hv <;>
        simp [Value.areKeys, Value.isKey, ih rest]
  rw [FactKey.checked, storable, hc, hn, parts _ h.entities]
  simp [Value.isKey]

/-! ### Order -/

/-- What facts are enumerated by: the category, the name and the texts of the entities. -/
def rank (k : FactKey) : String ×ₗ String ×ₗ List String :=
  toLex (k.category.text, toLex (k.name.text, k.entityTexts))

/-- The category and the name are texts, whatever the entities are. -/
structure Titled (k : FactKey) : Prop where
  category : ∃ c, k.category = .str c
  name : ∃ n, k.name = .str n

theorem Plain.titled {k : FactKey} (h : k.Plain) : k.Titled := ⟨h.category, h.name⟩

theorem before_eq {a b : FactKey} (ha : a.Titled) (hb : b.Titled) :
    a.before b = .ok (decide (a.rank < b.rank)) := by
  obtain ⟨c, hc⟩ := ha.category
  obtain ⟨n, hn⟩ := ha.name
  obtain ⟨c', hc'⟩ := hb.category
  obtain ⟨n', hn'⟩ := hb.name
  have lower : a.rank < b.rank ↔
      c < c' ∨ c = c' ∧ (n < n' ∨ n = n' ∧ a.entityTexts < b.entityTexts) := by
    simp only [rank, hc, hn, hc', hn', Value.text, Prod.Lex.toLex_lt_toLex]
  simp only [before, hc, hn, hc', hn', Value.alike_str, Value.lt, lower]
  by_cases category : c = c' <;> by_cases name : n = n' <;> simp [category, name]

end FactKey

end Chronoplan
