import Mathlib.Data.List.Nodup
import Mathlib.Tactic.Tauto
import Chronoplan.Table

/-!
# Tables

What is stored in a table and what is found in it, after entries are written or erased. Tables
whose keys are compared by a test of their own are led back to tables of what the keys stand for.
-/

set_option autoImplicit false

namespace Chronoplan

section

variable {κ ν : Type}

theorem erase_sublist (same : κ → κ → Bool) (k : κ) (t : Table κ ν) :
    (t.erase same k).Sublist t := by
  induction t with
  | nil => exact .slnil
  | cons e t ih =>
    unfold Table.erase
    split
    · exact ih.cons e
    · exact ih.cons_cons e

theorem find?_append (same : κ → κ → Bool) (k : κ) (t t' : Table κ ν) :
    Table.find? same k (t ++ t') = (t.find? same k).or (t'.find? same k) := by
  induction t with
  | nil => rfl
  | cons e t ih =>
    rw [List.cons_append, Table.find?, Table.find?, ih]
    split <;> rfl

theorem find?_eq_none (same : κ → κ → Bool) (k : κ) (t : Table κ ν)
    (other : ∀ e ∈ t, same e.1 k = false) : t.find? same k = none := by
  induction t with
  | nil => rfl
  | cons e t ih =>
    obtain ⟨here, later⟩ := List.forall_mem_cons.mp other
    rw [Table.find?, here]
    exact ih later

/-- What is found is the value of an entry. -/
theorem exists_of_find? {same : κ → κ → Bool} {k : κ} {v : ν} {t : Table κ ν}
    (h : t.find? same k = some v) : ∃ e ∈ t, same e.1 k = true ∧ e.2 = v := by
  induction t with
  | nil => cases h
  | cons e t ih =>
    unfold Table.find? at h
    split at h
    · next here =>
      cases h
      exact ⟨_, List.mem_cons_self, here, rfl⟩
    · obtain ⟨e', he', there, rfl⟩ := ih h
      exact ⟨e', List.mem_cons_of_mem e he', there, rfl⟩

theorem find?_filter (same : κ → κ → Bool) (k : κ) (t : Table κ ν)
    (keep : κ × ν → Bool) (kept : ∀ e ∈ t, same e.1 k = true → keep e = true) :
    Table.find? same k (t.filter keep) = Table.find? same k t := by
  induction t with
  | nil => rfl
  | cons e t ih =>
    obtain ⟨here, later⟩ := List.forall_mem_cons.mp kept
    by_cases key : same e.1 k = true
    · rw [List.filter_cons_of_pos (here key), Table.find?, Table.find?, if_pos key, if_pos key]
    · rw [List.filter_cons]
      split
      · rw [Table.find?, Table.find?, if_neg key, if_neg key, ih later]
      · rw [Table.find?, if_neg key, ih later]

theorem find?_isSome_iff (same : κ → κ → Bool) (k : κ) (t : Table κ ν) :
    (Table.find? same k t).isSome = true ↔ ∃ e ∈ t, same e.1 k = true := by
  induction t with
  | nil => simp
  | cons e t ih =>
    rw [Table.find?]
    split
    · next here => exact iff_of_true rfl ⟨e, List.mem_cons_self, here⟩
    · next other =>
      rw [ih]
      simp [other]

/-- Tables have the same keys when their entries have them one by one. -/
theorem keys_eq_iff {t t' : Table κ ν} :
    t.keys = t'.keys ↔ List.Forall₂ (fun e e' => e.1 = e'.1) t t' := by
  rw [← List.forall₂_eq_eq_eq, Table.keys, List.forall₂_map_left_iff, Table.keys,
    List.forall₂_map_right_iff]

/-- The value of the last entry for a key. -/
def Table.last? (same : κ → κ → Bool) (k : κ) (entries : Table κ ν) : Option ν :=
  Table.find? same k entries.reverse

theorem last?_append (same : κ → κ → Bool) (k : κ) (entries more : Table κ ν) :
    Table.last? same k (entries ++ more) = (more.last? same k).or (entries.last? same k) := by
  rw [Table.last?, List.reverse_append, find?_append]
  rfl

/-- A key that is not there yet is entered at the end. -/
theorem insert_of_fresh (same : κ → κ → Bool) (k : κ) (v : ν) (t : Table κ ν)
    (fresh : ∀ e ∈ t, same e.1 k = false) : t.insert same k v = t ++ [(k, v)] := by
  induction t with
  | nil => rfl
  | cons e t ih =>
    obtain ⟨here, later⟩ := List.forall_mem_cons.mp fresh
    rw [Table.insert, here, ih later]
    rfl

/-- Writing what is there changes nothing. -/
theorem insert_of_find? {same : κ → κ → Bool} {k : κ} {v : ν} {t : Table κ ν}
    (found : t.find? same k = some v) : t.insert same k v = t := by
  induction t with
  | nil => cases found
  | cons e t ih =>
    obtain ⟨k', v'⟩ := e
    rw [Table.find?] at found
    rw [Table.insert]
    split at found
    · next here => cases found; rw [if_pos here]
    · next other => rw [if_neg other, ih found]

theorem insert_insert {same : κ → κ → Bool} {k : κ} (self : same k k = true) (v w : ν)
    (t : Table κ ν) :
    (t.insert same k w).insert same k v = t.insert same k v := by
  induction t with
  | nil => simp [Table.insert, self]
  | cons e t ih =>
    obtain ⟨k', v'⟩ := e
    by_cases here : same k' k = true
    · simp [Table.insert, here]
    · simp [Table.insert, here, ih]

/-- Entries of which no two are for the same key are entered as they stand. -/
theorem insertAll_of_apart (same : κ → κ → Bool) (entries t : Table κ ν)
    (apart : (t ++ entries).Pairwise fun e e' => same e.1 e'.1 = false) :
    t.insertAll same entries = t ++ entries := by
  induction entries generalizing t with
  | nil => rw [List.append_nil]; rfl
  | cons e entries ih =>
    have fresh : ∀ e' ∈ t, same e'.1 e.1 = false := fun e' he' =>
      (List.pairwise_append.mp apart).2.2 e' he' e List.mem_cons_self
    have entered : t.insertAll same (e :: entries) = (t ++ [e]).insertAll same entries :=
      congrArg (Table.insertAll same entries) (insert_of_fresh same e.1 e.2 t fresh)
    rw [List.append_cons] at apart ⊢
    rw [entered, ih _ apart]

variable [BEq κ]

theorem forall_insert_of_none (P : κ × ν → Prop) (k : κ) (v : ν) (t : Table κ ν)
    (h : t.find? (· == ·) k = none) :
    (∀ e ∈ t.insert (· == ·) k v, P e) ↔ (∀ e ∈ t, P e) ∧ P (k, v) := by
  induction t with
  | nil => simp [Table.insert]
  | cons e t ih =>
    unfold Table.find? at h
    split at h
    · cases h
    · next other =>
      simp only [Table.insert, other, Bool.false_eq_true, if_false, List.forall_mem_cons, ih h,
        and_assoc]

variable [LawfulBEq κ]

theorem mem_insert (k : κ) (v : ν) (t : Table κ ν) (e : κ × ν)
    (h : e ∈ t.insert (· == ·) k v) : e ∈ t ∨ e = (k, v) := by
  induction t with
  | nil => simpa [Table.insert] using h
  | cons e' t ih =>
    unfold Table.insert at h
    split at h
    · next same =>
      rcases List.mem_cons.mp h with rfl | later
      · exact .inr (by rw [beq_iff_eq.mp same])
      · exact .inl (List.mem_cons_of_mem e' later)
    · rcases List.mem_cons.mp h with rfl | later
      · exact .inl List.mem_cons_self
      · exact (ih later).imp_left (List.mem_cons_of_mem e')

theorem mem_of_find? (k : κ) (v : ν) (t : Table κ ν)
    (h : t.find? (· == ·) k = some v) : (k, v) ∈ t := by
  induction t with
  | nil => cases h
  | cons e t ih =>
    unfold Table.find? at h
    split at h
    · next same =>
      cases h
      rw [← beq_iff_eq.mp same]
      exact List.mem_cons_self
    · exact List.mem_cons_of_mem e (ih h)

/-- Where a value is replaced by one that asks for more, the rest asks for what it did. -/
theorem forall_insert_of_some (P : κ × ν → Prop) (Q : Prop) (k : κ) (v old : ν) (t : Table κ ν)
    (h : t.find? (· == ·) k = some old) (hv : P (k, v) ↔ P (k, old) ∧ Q) :
    (∀ e ∈ t.insert (· == ·) k v, P e) ↔ (∀ e ∈ t, P e) ∧ Q := by
  induction t with
  | nil => cases h
  | cons e t ih =>
    obtain ⟨k', v'⟩ := e
    unfold Table.find? at h
    split at h
    · next same =>
      cases h
      have same' := beq_iff_eq.mp same
      subst same'
      simp only [Table.insert, same, if_true, List.forall_mem_cons, hv]
      tauto
    · next other =>
      simp only [Table.insert, other, Bool.false_eq_true, if_false, List.forall_mem_cons, ih h,
        and_assoc]

/-! ### One value for each key -/

/-- In a table with one value for each key the entries are what is found. -/
theorem find?_eq_some_iff (t : Table κ ν)
    (single : ∀ e ∈ t, ∀ e' ∈ t, e.1 = e'.1 → e = e') (k : κ) (v : ν) :
    t.find? (· == ·) k = some v ↔ (k, v) ∈ t := by
  constructor
  · exact mem_of_find? k v t
  · intro found
    induction t with
    | nil => cases found
    | cons e t ih =>
      unfold Table.find?
      split
      · next same =>
        have equal := single e List.mem_cons_self (k, v) found (beq_iff_eq.mp same)
        rw [equal]
      · next other =>
        apply ih
        · intro e he e' he'
          exact single e (List.mem_cons_of_mem _ he) e' (List.mem_cons_of_mem _ he')
        · rcases List.mem_cons.mp found with rfl | later
          · exact absurd (beq_iff_eq.mpr rfl) other
          · exact later

theorem keys_insert_nodup (k : κ) (v : ν) (t : Table κ ν) (h : t.keys.Nodup) :
    (Table.keys (t.insert (· == ·) k v)).Nodup := by
  induction t with
  | nil => exact List.nodup_singleton k
  | cons e t ih =>
    obtain ⟨fresh, rest⟩ := List.nodup_cons.mp h
    unfold Table.insert
    split
    · exact h
    · next other =>
      refine List.nodup_cons.mpr ⟨?_, ih rest⟩
      intro again
      obtain ⟨e', he', same⟩ := List.mem_map.mp again
      rcases mem_insert k v t e' he' with old | rfl
      · exact fresh (same ▸ List.mem_map_of_mem old)
      · exact other (beq_iff_eq.mpr same.symm)

theorem find?_eq_some_iff_of_nodup (t : Table κ ν) (h : t.keys.Nodup) (k : κ) (v : ν) :
    t.find? (· == ·) k = some v ↔ (k, v) ∈ t :=
  find?_eq_some_iff t (fun _ he _ he' same => List.inj_on_of_nodup_map h he he' same) k v

/-- Tables with one value for each key hold the same entries when the same is found in both. -/
theorem perm_of_find?_eq (t t' : Table κ ν) (h : t.keys.Nodup) (h' : t'.keys.Nodup)
    (same : ∀ k, t.find? (· == ·) k = t'.find? (· == ·) k) : t.Perm t' := by
  refine (List.perm_ext_iff_of_nodup (List.Nodup.of_map _ h) (List.Nodup.of_map _ h')).mpr ?_
  rintro ⟨k, v⟩
  rw [← find?_eq_some_iff_of_nodup t h, ← find?_eq_some_iff_of_nodup t' h', same k]

theorem keys_insertAll_nodup (entries t : Table κ ν) (h : t.keys.Nodup) :
    (Table.keys (t.insertAll (· == ·) entries)).Nodup := by
  induction entries generalizing t with
  | nil => exact h
  | cons e entries ih => exact ih _ (keys_insert_nodup e.1 e.2 t h)

/-- Of several entries for a key the last decides what is found. -/
theorem find?_insertAll (k : κ) (entries t : Table κ ν) :
    (t.insertAll (· == ·) entries).find? (· == ·) k =
      (entries.last? (· == ·) k).or (t.find? (· == ·) k) := by
  induction entries generalizing t with
  | nil => rfl
  | cons e entries ih =>
    have first : Table.last? (· == ·) k [e] = if e.1 == k then some e.2 else none := rfl
    have written := Table.find?_insert (· == ·) e.1 k e.2 t (fun _ _ => BEq.comm)
      fun _ _ _ => BEq.trans
    refine (ih _).trans ?_
    rw [← List.singleton_append, last?_append, Option.or_assoc, first, written]
    split <;> rfl

theorem last?_of_nodup (t : Table κ ν) (h : t.keys.Nodup) (k : κ) :
    t.last? (· == ·) k = t.find? (· == ·) k := by
  have back : (Table.keys t.reverse).Nodup := by
    rw [Table.keys, List.map_reverse, List.nodup_reverse]
    exact h
  refine Option.ext fun v => ?_
  rw [Table.last?, find?_eq_some_iff_of_nodup _ back, List.mem_reverse,
    find?_eq_some_iff_of_nodup t h]

theorem last?_isSome_iff (k : κ) (t : Table κ ν) : (t.last? (· == ·) k).isSome ↔ k ∈ t.keys := by
  rw [Table.keys, ← List.mem_reverse, ← List.map_reverse, Table.last?]
  generalize t.reverse = t
  induction t with
  | nil => simp
  | cons e t ih =>
    unfold Table.find?
    split
    · next here => simp [beq_iff_eq.mp here]
    · next other => simp [ih, Ne.symm (ne_of_beq_false (Bool.eq_false_iff.mpr other))]

end

/-! ### Keys by what they stand for -/

section

variable {κ ι ν : Type} {same : κ → κ → Bool}

/-- The table with each key replaced by what it stands for. -/
def Table.relabel (form : κ → ι) (t : Table κ ν) : Table ι ν := t.map fun e => (form e.1, e.2)

variable {P : κ → Prop}

/-- After a write every key and every value is one from before or the one that is written. -/
theorem mem_insert_parts {k : κ} {v : ν} {t : Table κ ν} {e : κ × ν} (h : e ∈ t.insert same k v) :
    (e.1 = k ∨ ∃ e' ∈ t, e.1 = e'.1) ∧ (e.2 = v ∨ ∃ e' ∈ t, e.2 = e'.2) := by
  induction t with
  | nil =>
    cases List.mem_singleton.mp h
    exact ⟨.inl rfl, .inl rfl⟩
  | cons first t ih =>
    simp only [List.mem_cons, exists_eq_or_imp]
    unfold Table.insert at h
    split at h
    · rcases List.mem_cons.mp h with rfl | later
      · exact ⟨.inr (.inl rfl), .inl rfl⟩
      · exact ⟨.inr (.inr ⟨e, later, rfl⟩), .inr (.inr ⟨e, later, rfl⟩)⟩
    · rcases List.mem_cons.mp h with rfl | later
      · exact ⟨.inr (.inl rfl), .inr (.inl rfl)⟩
      · exact ⟨(ih later).1.imp_right .inr, (ih later).2.imp_right .inr⟩

theorem forall_keys_insert {k : κ} (v : ν) {t : Table κ ν} (hk : P k) (ht : ∀ e ∈ t, P e.1) :
    ∀ e ∈ t.insert same k v, P e.1 := by
  intro e he
  obtain new | ⟨e', he', old⟩ := (mem_insert_parts he).1
  · exact new ▸ hk
  · exact old ▸ ht e' he'

theorem forall_keys_insertAll {entries t : Table κ ν} (hes : ∀ e ∈ entries, P e.1)
    (ht : ∀ e ∈ t, P e.1) : ∀ e ∈ t.insertAll same entries, P e.1 := by
  induction entries generalizing t with
  | nil => exact ht
  | cons e entries ih =>
    obtain ⟨here, later⟩ := List.forall_mem_cons.mp hes
    exact ih later (forall_keys_insert e.2 here ht)

theorem forall_values_insertAll {Q : ν → Prop} {entries t : Table κ ν}
    (hes : ∀ e ∈ entries, Q e.2) (ht : ∀ e ∈ t, Q e.2) :
    ∀ e ∈ t.insertAll same entries, Q e.2 := by
  induction entries generalizing t with
  | nil => exact ht
  | cons first entries ih =>
    obtain ⟨here, later⟩ := List.forall_mem_cons.mp hes
    refine ih later fun e he => ?_
    obtain new | ⟨e', he', old⟩ := (mem_insert_parts he).2
    · exact new ▸ here
    · exact old ▸ ht e' he'

variable [BEq ι] {form : κ → ι} (spelled : ∀ a b, P a → P b → same a b = (form a == form b))
include spelled

theorem find?_relabel {k : κ} {t : Table κ ν} (hk : P k) (ht : ∀ e ∈ t, P e.1) :
    (t.relabel form).find? (· == ·) (form k) = t.find? same k := by
  induction t with
  | nil => rfl
  | cons e t ih =>
    obtain ⟨here, later⟩ := List.forall_mem_cons.mp ht
    simp only [Table.find?, spelled _ _ here hk, ← ih later]
    rfl

/-- An entry is found under its key when no other key stands for the same. -/
theorem find?_of_mem [LawfulBEq ι] {t : Table κ ν} (ht : ∀ e ∈ t, P e.1)
    (once : (t.relabel form).keys.Nodup) {e : κ × ν} (he : e ∈ t) :
    t.find? same e.1 = some e.2 := by
  rw [← find?_relabel spelled (ht e he) ht, find?_eq_some_iff_of_nodup _ once]
  exact List.mem_map_of_mem he

theorem last?_relabel {k : κ} {t : Table κ ν} (hk : P k) (ht : ∀ e ∈ t, P e.1) :
    (t.relabel form).last? (· == ·) (form k) = t.last? same k := by
  rw [Table.last?, Table.relabel, ← List.map_reverse]
  exact find?_relabel spelled hk fun e he => ht e (List.mem_reverse.mp he)

theorem insert_relabel {k : κ} (v : ν) {t : Table κ ν} (hk : P k) (ht : ∀ e ∈ t, P e.1) :
    (t.insert same k v).relabel form = (t.relabel form).insert (· == ·) (form k) v := by
  induction t with
  | nil => rfl
  | cons e t ih =>
    obtain ⟨here, later⟩ := List.forall_mem_cons.mp ht
    change Table.relabel form (if same e.1 k then _ else _) =
      if form e.1 == form k then _ else _
    rw [spelled _ _ here hk]
    split
    · rfl
    · exact congrArg ((form e.1, e.2) :: ·) (ih later)

theorem erase_relabel {k : κ} {t : Table κ ν} (hk : P k) (ht : ∀ e ∈ t, P e.1) :
    (t.erase same k).relabel form = (t.relabel form).erase (· == ·) (form k) := by
  induction t with
  | nil => rfl
  | cons e t ih =>
    obtain ⟨here, later⟩ := List.forall_mem_cons.mp ht
    change Table.relabel form (if same e.1 k then _ else _) =
      if form e.1 == form k then _ else _
    rw [spelled _ _ here hk]
    split
    · exact ih later
    · exact congrArg ((form e.1, e.2) :: ·) (ih later)

theorem insertAll_relabel {entries t : Table κ ν} (hes : ∀ e ∈ entries, P e.1)
    (ht : ∀ e ∈ t, P e.1) : (t.insertAll same entries).relabel form =
      (t.relabel form).insertAll (· == ·) (entries.relabel form) := by
  induction entries generalizing t with
  | nil => rfl
  | cons e entries ih =>
    obtain ⟨here, later⟩ := List.forall_mem_cons.mp hes
    refine (ih later (forall_keys_insert e.2 here ht)).trans ?_
    rw [insert_relabel spelled e.2 here ht]
    rfl

end

end Chronoplan
