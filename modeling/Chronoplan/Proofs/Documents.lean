import Chronoplan.Problem
import Chronoplan.Proofs.Tables

/-!
# Values of a document

What a text can write without calendar values: null, truth values, integers, binary64 numbers,
texts, lists and mappings whose keys are texts, in any nesting. The parts of such a value are such
values again, also where the text names a container and refers to it later on.
-/

set_option autoImplicit false

namespace Chronoplan

namespace Value

mutual

def isDocument : Value → Bool
  | .null => true
  | .num (.ratio _) => false
  | .num _ => true
  | .str _ => true
  | .list xs => areDocuments xs
  | .dict kvs => holdDocuments kvs
  | _ => false

def areDocuments : List Value → Bool
  | [] => true
  | x :: xs => isDocument x && areDocuments xs

def holdDocuments : List (Value × Value) → Bool
  | [] => true
  | (.str _, v) :: r => isDocument v && holdDocuments r
  | _ :: _ => false

end

theorem areDocuments_iff (xs : List Value) :
    areDocuments xs = true ↔ ∀ x ∈ xs, x.isDocument = true := by
  induction xs with
  | nil => simp [areDocuments]
  | cons x xs ih => rw [areDocuments, Bool.and_eq_true, ih, List.forall_mem_cons]

theorem holdDocuments_iff (kvs : List (Value × Value)) : holdDocuments kvs = true ↔
    ∀ e ∈ kvs, (∃ s, e.1 = .str s) ∧ e.2.isDocument = true := by
  induction kvs with
  | nil => simp [holdDocuments]
  | cons e kvs ih =>
    obtain ⟨k, v⟩ := e
    rw [List.forall_mem_cons, ← ih]
    cases k <;> simp [holdDocuments]

/-- What a loop cannot run through. -/
def isSingle : Value → Bool
  | .null => true
  | .num _ => true
  | .cycle _ => true
  | .span _ => true
  | .date _ => true
  | .moment _ => true
  | _ => false

theorem elements_eq_error_iff (v : Value) (f : Fault) :
    v.elements = .error f ↔ v.isSingle = true ∧ f = .illTyped := by
  cases v <;> simp [elements, isSingle, eq_comm]

theorem isSingle_document {v : Value} (h : v.isDocument = true) :
    v.isSingle = true ↔ v = .null ∨ ∃ n, v = .num n := by
  cases v <;> simp_all [isDocument, isSingle]

theorem elements_document {v : Value} (h : v.isDocument = true) {xs : List Value}
    (hx : v.elements = .ok xs) : ∀ x ∈ xs, x.isDocument = true := by
  cases v with
  | list ys =>
    cases hx
    exact (areDocuments_iff _).mp h
  | dict kvs =>
    cases hx
    intro x hx
    obtain ⟨e, he, rfl⟩ := List.mem_map.mp hx
    obtain ⟨⟨s, hs⟩, -⟩ := (holdDocuments_iff kvs).mp h e he
    rw [hs]
    rfl
  | str s =>
    cases hx
    intro x hx
    obtain ⟨c, -, rfl⟩ := List.mem_map.mp hx
    rfl
  | _ => simp_all [elements, isDocument]

theorem field?_document {v : Value} (h : v.isDocument = true) {name : String} {x : Value}
    (hx : v.field? name = some x) : x.isDocument = true := by
  cases v with
  | dict kvs =>
    obtain ⟨e, he, -, rfl⟩ := exists_of_find? hx
    exact ((holdDocuments_iff kvs).mp h e he).2
  | _ => cases hx

theorem partOr_document {v default : Value} (h : v.isDocument = true)
    (given : default.isDocument = true) (name : String) :
    (v.partOr name default).isDocument = true := by
  unfold partOr
  cases found : v.field? name with
  | none => exact given
  | some x => exact field?_document h found

end Value

/-! ### Shared parts -/

namespace Linked

theorem toValues_eq_map (xs : List Linked) : toValues xs = xs.map toValue := by
  induction xs with
  | nil => rfl
  | cons x xs ih => rw [toValues, ih, List.map_cons]

theorem toEntries_eq_map (kvs : Entries) :
    toEntries kvs = kvs.map fun e => (e.1, toValue e.2) := by
  induction kvs with
  | nil => rfl
  | cons e kvs ih =>
    obtain ⟨k, v⟩ := e
    rw [toEntries, ih, List.map_cons]

section

variable (link : Nat) (whole : Linked)

mutual

/-- A value that meets none of its containers again is as it stands inside them. -/
theorem toValue_bind : (v : Linked) → v.toValue.isDocument = true →
    (bind link whole v).toValue = v.toValue
  | .leaf _ _, _ => rfl
  | .set _ _, _ => rfl
  | .again _ _, h => by simp [toValue, Value.isDocument] at h
  | .tuple _, h => by simp [toValue, Value.isDocument] at h
  | .list _ xs, h => congrArg Value.list (toValues_bindAll xs h)
  | .dict _ kvs, h => congrArg Value.dict (toEntries_bindEntries kvs h)
  | .keyed _ v, h => toValue_bind v h

theorem toValues_bindAll : (xs : List Linked) → Value.areDocuments (toValues xs) = true →
    toValues (bindAll link whole xs) = toValues xs
  | [], _ => rfl
  | x :: xs, h => by
    obtain ⟨first, rest⟩ := Bool.and_eq_true_iff.mp h
    simp only [bindAll, toValues, toValue_bind x first, toValues_bindAll xs rest]

theorem toEntries_bindEntries : (kvs : Entries) → Value.holdDocuments (toEntries kvs) = true →
    toEntries (bindEntries link whole kvs) = toEntries kvs
  | [], _ => rfl
  | (k, v) :: kvs, h => by
    obtain ⟨⟨s, hs⟩, first⟩ :=
      (Value.holdDocuments_iff _).mp h (k, v.toValue) List.mem_cons_self
    cases hs
    obtain ⟨-, rest⟩ := Bool.and_eq_true_iff.mp h
    simp only [bindEntries, toEntries, toValue_bind v first, toEntries_bindEntries kvs rest]

end

end

variable {v : Linked} (h : v.toValue.isDocument = true)
include h

theorem entries_document : ∀ e ∈ v.entries, e.2.toValue.isDocument = true := by
  cases v with
  | dict l kvs =>
    have same : toEntries (entries (.dict l kvs)) = toEntries kvs := by
      simp only [entries]
      split
      · rfl
      · exact toEntries_bindEntries l (.dict l kvs) kvs h
    rw [toEntries_eq_map, toEntries_eq_map] at same
    intro e he
    have there : (e.1, e.2.toValue) ∈ kvs.map fun e => (e.1, toValue e.2) :=
      same ▸ List.mem_map_of_mem he
    rw [← toEntries_eq_map] at there
    exact ((Value.holdDocuments_iff _).mp h _ there).2
  | _ => simp [entries]

theorem field?_document {name : String} {p : Linked} (hp : v.field? name = some p) :
    p.toValue.isDocument = true := by
  obtain ⟨e, he, -, rfl⟩ := exists_of_find? hp
  exact entries_document h e he

theorem elements_eq : v.elements = v.toValue.elements := by
  cases v with
  | list l xs =>
    have same : toValues (items (.list l xs)) = toValues xs := by
      simp only [items]
      split
      · rfl
      · exact toValues_bindAll l (.list l xs) xs h
    rw [elements, ← toValues_eq_map, same]
    rfl
  | _ => rfl

theorem part_document {name : String} {xs : List Value} (hx : v.part name = .ok xs) :
    ∀ x ∈ xs, x.isDocument = true := by
  unfold part at hx
  split at hx
  · cases hx
    simp
  · next p hp =>
    rw [elements_eq (field?_document h hp)] at hx
    exact Value.elements_document (field?_document h hp) hx

end Linked

end Chronoplan
