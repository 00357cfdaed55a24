/-!
# Insertion-ordered tables

A finite map as the list of its entries in the order of their first insertion. Replacing a value
keeps the entry's place and its key; removing and inserting again moves it to the end. Keys are
compared by a given test, since some tables identify keys that are written differently.
-/

set_option autoImplicit false

namespace Chronoplan

abbrev Table (κ ν : Type) := List (κ × ν)

namespace Table

variable {κ ν : Type}

def find? (same : κ → κ → Bool) (k : κ) : Table κ ν → Option ν
  | [] => none
  | (k', v) :: t => if same k' k then some v else find? same k t

def insert (same : κ → κ → Bool) (k : κ) (v : ν) : Table κ ν → Table κ ν
  | [] => [(k, v)]
  | (k', v') :: t => if same k' k then (k', v) :: t else (k', v') :: insert same k v t

def erase (same : κ → κ → Bool) (k : κ) : Table κ ν → Table κ ν
  | [] => []
  | (k', v') :: t => if same k' k then erase same k t else (k', v') :: erase same k t

def contains (same : κ → κ → Bool) (k : κ) (t : Table κ ν) : Bool := (t.find? same k).isSome

def insertAll (same : κ → κ → Bool) (entries : List (κ × ν)) (t : Table κ ν) : Table κ ν :=
  entries.foldl (fun t e => insert same e.1 e.2 t) t

def keys (t : Table κ ν) : List κ := t.map Prod.fst

@[simp] theorem find?_nil (same : κ → κ → Bool) (k : κ) :
    find? same k ([] : Table κ ν) = none := rfl

/-- After writing a key, its class holds the new value and every other class is as before. -/
theorem find?_insert (same : κ → κ → Bool) (k j : κ) (v : ν) (t : Table κ ν)
    (symm : ∀ a b, same a b = same b a)
    (trans : ∀ a b c, same a b = true → same b c = true → same a c = true) :
    find? same j (insert same k v t) = if same k j then some v else find? same j t := by
  induction t with
  | nil => simp [insert, find?]
  | cons e t ih =>
    obtain ⟨k', v'⟩ := e
    by_cases h : same k' k = true
    · have hj : same k' j = same k j := by
        apply Bool.eq_iff_iff.2
        constructor
        · exact fun h' => trans k k' j (by rw [symm]; exact h) h'
        · exact fun h' => trans k' k j h h'
      simp [insert, find?, h, hj]
      split <;> simp_all
    · by_cases hj : same k' j = true
      · have hk : same k j = false := by
          apply Bool.eq_false_iff.2
          intro h'
          exact h (trans k' j k hj (by rw [symm]; exact h'))
        simp [insert, find?, h, hj, hk]
      · simp [insert, find?, h, hj, ih]

theorem find?_erase (same : κ → κ → Bool) (k j : κ) (t : Table κ ν)
    (symm : ∀ a b, same a b = same b a)
    (trans : ∀ a b c, same a b = true → same b c = true → same a c = true) :
    find? same j (erase same k t) = if same k j then none else find? same j t := by
  induction t with
  | nil => simp [erase, find?]
  | cons e t ih =>
    obtain ⟨k', v'⟩ := e
    by_cases h : same k' k = true
    · by_cases hk : same k j = true
      · simp [erase, h, ih, hk]
      · have hj : same k' j = false := by
          apply Bool.eq_false_iff.2
          intro h'
          exact hk (trans k k' j (by rw [symm]; exact h) h')
        simp [erase, find?, h, ih, hk, hj]
    · by_cases hj : same k' j = true
      · have hk : same k j = false := by
          apply Bool.eq_false_iff.2
          intro h'
          exact h (trans k' j k hj (by rw [symm]; exact h'))
        simp [erase, find?, h, hj, hk]
      · simp [erase, find?, h, hj, ih]

end Table

end Chronoplan
