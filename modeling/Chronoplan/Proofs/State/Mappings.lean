import Chronoplan.Value.Text
import Chronoplan.Proofs.Tables

/-!
# Mappings

The keys of a mapping are values, and here they are texts, each given once. Two mappings with the
same texts in the same order and with values that are related one by one stay so when an entry is
written to both, and they are equal when related values are.
-/

set_option autoImplicit false

namespace Chronoplan

namespace Value

def IsText (v : Value) : Prop := ∃ s, v = .str s

theorem alike_eq_texts (a b : Value) (ha : a.IsText) (hb : b.IsText) :
    a.alike b = (a.text == b.text) := by
  obtain ⟨s, rfl⟩ := ha
  obtain ⟨t, rfl⟩ := hb
  exact alike_str s t

theorem alike_str_iff (k : Value) (name : String) : k.alike (.str name) = true ↔ k = .str name := by
  cases k <;> simp [alike, eq, sameNaN]

theorem str_alike_comm (k : Value) (name : String) :
    (Value.str name).alike k = k.alike (.str name) := by
  cases k with
  | str other => rw [alike_str, alike_str, BEq.comm]
  | _ => simp [alike, eq, sameNaN]

theorem str_alike_iff (k : Value) (name : String) :
    (Value.str name).alike k = true ↔ k = .str name := by
  rw [str_alike_comm, alike_str_iff]

theorem entryIn_eq (k v : Value) (t : Table Value Value) :
    entryIn k v t = (Table.find? (fun k' k => k.alike k') k t).any v.alike := by
  induction t with
  | nil => simp [entryIn]
  | cons e t ih =>
    obtain ⟨k', w⟩ := e
    rw [entryIn, Table.find?, ih, ← alike, ← alike]
    split <;> rfl

/-- An entry under a text is in a mapping when an equal value is found there. -/
theorem entryIn_str_iff (name : String) (v : Value) (t : Table Value Value) :
    entryIn (.str name) v t = true ↔ ∃ w, lookup (.str name) t = some w ∧ v.alike w = true := by
  have turned : Table.find? (fun k' k => k.alike k') (.str name) t = lookup (.str name) t := by
    induction t with
    | nil => rfl
    | cons e t ih =>
      simp only [lookup, Table.find?, str_alike_comm] at ih ⊢
      rw [ih]
  rw [entryIn_eq, turned]
  cases lookup (.str name) t <;> simp

theorem within_iff (s u : Table Value Value) :
    within s u = true ↔ ∀ e ∈ s, entryIn e.1 e.2 u = true := by
  induction s with
  | nil => simp [within]
  | cons e s ih => rw [within, Bool.and_eq_true, ih, List.forall_mem_cons]

theorem dict_alike_iff (s u : Table Value Value) : (Value.dict s).alike (.dict u) = true ↔
    s.length = u.length ∧ ∀ e ∈ s, entryIn e.1 e.2 u = true := by
  simp only [alike, sameNaN, Bool.or_false, eq, Bool.and_eq_true, beq_iff_eq, within_iff]

end Value

/-- The keys are texts, and each of them is given once. -/
structure Named (t : Table Value Value) : Prop where
  texts : ∀ e ∈ t, e.1.IsText
  once : (t.relabel Value.text).keys.Nodup

namespace Named

variable {t : Table Value Value}

theorem insert (h : Named t) {k : Value} (hk : k.IsText) (v : Value) :
    Named (t.insert Value.alike k v) where
  texts := forall_keys_insert v hk h.texts
  once := by
    rw [insert_relabel Value.alike_eq_texts v hk h.texts]
    exact keys_insert_nodup _ _ _ h.once

end Named

/-- Tables with the same texts as keys and related values. -/
structure Twin (R : Value → Value → Prop) (t t' : Table Value Value) : Prop where
  named : Named t
  pairs : List.Forall₂ (fun e e' => e.1 = e'.1 ∧ R e.2 e'.2) t t'

/-- Mappings with the same texts as keys and related values. -/
def Mappings (R : Value → Value → Prop) (v v' : Value) : Prop :=
  ∃ t t', v = .dict t ∧ v' = .dict t' ∧ Twin R t t'

theorem Named.twin {R : Value → Value → Prop} {t : Table Value Value} (h : Named t)
    (self : ∀ e ∈ t, R e.2 e.2) : Twin R t t :=
  ⟨h, List.forall₂_same.mpr fun e he => ⟨rfl, self e he⟩⟩

namespace Twin

variable {R : Value → Value → Prop} {t t' : Table Value Value}

theorem nil : Twin R [] [] := ⟨⟨by rintro _ ⟨⟩, List.nodup_nil⟩, .nil⟩

theorem insert (h : Twin R t t') {k v v' : Value} (hk : k.IsText) (hv : R v v') :
    Twin R (t.insert Value.alike k v) (t'.insert Value.alike k v') := by
  refine ⟨h.named.insert hk v, ?_⟩
  have pairs := h.pairs
  clear h
  induction pairs with
  | nil => exact .cons ⟨rfl, hv⟩ .nil
  | @cons e e' _ _ here later ih =>
    obtain ⟨k₁, v₁⟩ := e
    obtain ⟨_, v₁'⟩ := e'
    obtain ⟨rfl, related⟩ := here
    unfold Table.insert
    split
    · exact .cons ⟨rfl, hv⟩ later
    · exact .cons ⟨rfl, related⟩ ih

theorem find? (h : Twin R t t') (k : Value) :
    Option.Rel R (t.find? Value.alike k) (t'.find? Value.alike k) := by
  have pairs := h.pairs
  clear h
  induction pairs with
  | nil => exact .none
  | @cons e e' _ _ here later ih =>
    obtain ⟨k₁, v₁⟩ := e
    obtain ⟨_, v₁'⟩ := e'
    obtain ⟨rfl, related⟩ := here
    unfold Table.find?
    split
    · exact .some related
    · exact ih

/-- What is found under a key is a mapping on both sides, or nothing. -/
theorem inner (h : Twin (Mappings R) t t') (k : Value) :
    Twin R (match t.find? Value.alike k with
      | some (.dict kvs) => kvs
      | _ => []) (match t'.find? Value.alike k with
      | some (.dict kvs) => kvs
      | _ => []) := by
  have found := h.find? k
  generalize t.find? Value.alike k = v at found
  generalize t'.find? Value.alike k = v' at found
  cases found with
  | none => exact nil
  | some mappings =>
    obtain ⟨inside, inside', rfl, rfl, twin⟩ := mappings
    exact twin

/-- Mappings with equal entries are equal. -/
theorem dict_eq (h : Twin R t t') (like : ∀ v v', R v v' → v.alike v' = true) :
    (Value.dict t).eq (.dict t') = true := by
  have entries : Value.within t t' = true := by
    refine (Value.within_iff t t').mpr fun e he => ?_
    have related := h.find? e.1
    rw [find?_of_mem Value.alike_eq_texts h.named.texts h.named.once he] at related
    generalize hv : t'.find? Value.alike e.1 = found at related
    cases related with
    | some related =>
      obtain ⟨name, key⟩ := h.named.texts e he
      rw [key] at hv ⊢
      exact (Value.entryIn_str_iff name e.2 t').mpr ⟨_, hv, like _ _ related⟩
  rw [Value.eq, h.pairs.length_eq, entries, beq_self_eq_true]
  rfl

theorem mappings_like (like : ∀ v v', R v v' → v.alike v' = true) (v v' : Value)
    (h : Mappings R v v') : v.alike v' = true := by
  obtain ⟨t, t', rfl, rfl, twin⟩ := h
  exact Bool.or_eq_true_iff.mpr (.inl (twin.dict_eq like))

end Twin

/-- A mapping of texts is equal to itself when each of its values is. -/
theorem Named.dict_eq_self {t : Table Value Value} (h : Named t)
    (self : ∀ e ∈ t, e.2.alike e.2 = true) : (Value.dict t).eq (.dict t) = true :=
  (h.twin (R := fun v v' => v.alike v' = true) self).dict_eq fun _ _ like => like

end Chronoplan
