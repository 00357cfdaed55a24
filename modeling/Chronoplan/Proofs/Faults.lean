import Mathlib.Data.List.Forall2
import Chronoplan.Fault

/-!
# Computations that may end in a fault

How a result or a fault of a composed computation comes from its parts. Later proofs take a
computation apart with these equivalences and never unfold the composition itself.
-/

set_option autoImplicit false

namespace Chronoplan

variable {α β : Type}

@[simp] theorem ok_bind (a : α) (f : α → Except Fault β) : (Except.ok a >>= f) = f a := rfl

@[simp] theorem error_bind (e : Fault) (f : α → Except Fault β) :
    (Except.error e >>= f) = .error e := rfl

@[simp] theorem pure_eq_ok (a : α) : (pure a : Except Fault α) = .ok a := rfl

theorem bind_eq_ok_iff (x : Except Fault α) (f : α → Except Fault β) (b : β) :
    (x >>= f) = .ok b ↔ ∃ a, x = .ok a ∧ f a = .ok b := by
  cases x <;> simp

theorem bind_eq_error_iff (x : Except Fault α) (f : α → Except Fault β) (e : Fault) :
    (x >>= f) = .error e ↔ x = .error e ∨ ∃ a, x = .ok a ∧ f a = .error e := by
  cases x <;> simp

theorem orFault_eq_ok_iff (e : Fault) (x : Option α) (a : α) :
    orFault e x = .ok a ↔ x = some a := by
  cases x <;> simp [orFault]

theorem orFault_fault (e f : Fault) (x : Option α) (h : orFault e x = .error f) : f = e := by
  cases x with
  | none => exact (Except.error.inj h).symm
  | some a => cases h

@[simp] theorem Value.spell_str (s : String) : (Value.str s).spell = .ok s := rfl

@[simp] theorem requireWritable_true : requireWritable true = .ok () := rfl

@[simp] theorem requireWritable_false : requireWritable false = .error .malformed := rfl

/-- What comes behind a text that has to be written is reached exactly when it can be. -/
theorem requireWritable_bind_iff {α : Type} (writable : Bool) (f : Unit → Except Fault α) (a : α) :
    (requireWritable writable >>= f) = .ok a ↔ writable = true ∧ f () = .ok a := by
  cases writable <;> simp

theorem Value.spell_cases (v : Value) :
    v.isWritable = true ∧ v.spell = .ok v.text ∨
      v.isWritable = false ∧ v.spell = .error .malformed := by
  unfold Value.spell
  cases v.isWritable <;> simp

theorem toOption_eq_some_iff {ε : Type} {x : Except ε α} {a : α} :
    x.toOption = some a ↔ x = .ok a := by
  cases x <;> simp [Except.toOption]

/-- Whether a computation stops at a number that is too large. -/
def stopsTooLarge {α : Type} (x : Except Fault α) : Bool :=
  match x with
  | .ok _ => false
  | .error e => e.ctorIdx == Fault.tooLarge.ctorIdx

theorem stopsTooLarge_iff {α : Type} {x : Except Fault α} :
    stopsTooLarge x = true ↔ x = .error .tooLarge := by
  cases x with
  | ok a => simp [stopsTooLarge]
  | error e => cases e <;> simp [stopsTooLarge, Fault.ctorIdx]

/-- A list is mapped without a fault exactly when each of its elements is. -/
theorem mapM_eq_ok_iff (f : α → Except Fault β) (as : List α) (bs : List β) :
    as.mapM f = .ok bs ↔ List.Forall₂ (fun a b => f a = .ok b) as bs := by
  induction as generalizing bs with
  | nil => cases bs <;> simp
  | cons a as ih =>
    rw [List.mapM_cons, bind_eq_ok_iff]
    simp only [bind_eq_ok_iff, ih, pure_eq_ok, Except.ok.injEq]
    constructor
    · rintro ⟨b, hb, rest, hrest, rfl⟩
      exact .cons hb hrest
    · intro h
      cases h with
      | cons hb hrest => exact ⟨_, hb, _, hrest, rfl⟩

/-- What is done to every result of a list is done to the list of results. -/
theorem mapM_map_result {γ : Type} (f : α → Except Fault β) (g : β → γ) (as : List α) :
    as.mapM (fun a => (f a).map g) = (as.mapM f).map (List.map g) := by
  induction as with
  | nil => rfl
  | cons a as ih =>
    rw [List.mapM_cons, List.mapM_cons, ih]
    cases f a with
    | error e => rfl
    | ok b => cases as.mapM f <;> rfl

theorem mapM_length (f : α → Except Fault β) (as : List α) (bs : List β)
    (h : as.mapM f = .ok bs) : bs.length = as.length :=
  ((mapM_eq_ok_iff f as bs).mp h).length_eq.symm

/-- Mapping over a family of elements, each of which has one result under a condition. -/
theorem mapM_map_eq_ok_iff {ι : Type} (is : List ι) (g : ι → α) (f : α → Except Fault β)
    (P : ι → Prop) (h : ι → β) (hf : ∀ i ∈ is, ∀ b, f (g i) = .ok b ↔ P i ∧ b = h i)
    (bs : List β) : (is.map g).mapM f = .ok bs ↔ (∀ i ∈ is, P i) ∧ bs = is.map h := by
  rw [mapM_eq_ok_iff]
  induction is generalizing bs with
  | nil => simp
  | cons i is ih =>
    rw [List.map_cons, List.forall₂_cons_left_iff]
    simp only [hf i List.mem_cons_self, ih fun j hj => hf j (List.mem_cons_of_mem i hj)]
    constructor
    · rintro ⟨b, rest, ⟨hi, rfl⟩, ⟨his, rfl⟩, rfl⟩
      exact ⟨List.forall_mem_cons.mpr ⟨hi, his⟩, rfl⟩
    · rintro ⟨hall, rfl⟩
      obtain ⟨hi, his⟩ := List.forall_mem_cons.mp hall
      exact ⟨_, _, ⟨hi, rfl⟩, ⟨his, rfl⟩, rfl⟩

/-- Where every element is mapped or refused with one fault, a list is mapped or refused with it. -/
theorem mapM_eq_ite (f : α → Except Fault β) (P : α → Prop) [DecidablePred P] (g : α → β)
    (e : Fault) (as : List α) (hf : ∀ a ∈ as, f a = if P a then .ok (g a) else .error e) :
    as.mapM f = if ∀ a ∈ as, P a then .ok (as.map g) else .error e := by
  induction as with
  | nil => simp
  | cons a as ih =>
    obtain ⟨ha, has⟩ := List.forall_mem_cons.mp hf
    rw [List.mapM_cons, ha, ih has]
    by_cases first : P a
    · by_cases rest : ∀ a ∈ as, P a
      · rw [if_pos first, if_pos rest, if_pos (List.forall_mem_cons.mpr ⟨first, rest⟩)]
        rfl
      · rw [if_pos first, if_neg rest, if_neg fun all => rest (List.forall_mem_cons.mp all).2]
        rfl
    · rw [if_neg first, if_neg fun all => first (List.forall_mem_cons.mp all).1]
      rfl

theorem mem_of_mapM (f : α → Except Fault β) (as : List α) (bs : List β)
    (h : as.mapM f = .ok bs) : ∀ b ∈ bs, ∃ a ∈ as, f a = .ok b := by
  rw [mapM_eq_ok_iff] at h
  induction h with
  | nil => simp
  | cons hb _ ih =>
    rw [List.forall_mem_cons]
    refine ⟨⟨_, List.mem_cons_self, hb⟩, fun b hmem => ?_⟩
    obtain ⟨a, ha, hab⟩ := ih b hmem
    exact ⟨a, List.mem_cons_of_mem _ ha, hab⟩

theorem exists_of_mapM (f : α → Except Fault β) (as : List α) (bs : List β)
    (h : as.mapM f = .ok bs) : ∀ a ∈ as, ∃ b ∈ bs, f a = .ok b := by
  rw [mapM_eq_ok_iff] at h
  induction h with
  | nil => simp
  | cons hb _ ih =>
    rw [List.forall_mem_cons]
    refine ⟨⟨_, List.mem_cons_self, hb⟩, fun a hmem => ?_⟩
    obtain ⟨b, hb, hab⟩ := ih a hmem
    exact ⟨b, List.mem_cons_of_mem _ hb, hab⟩

/-- What every element keeps is kept by the list. -/
theorem map_eq_of_mapM {γ : Type} (g : β → γ) (h : α → γ) (f : α → Except Fault β) (as : List α)
    (bs : List β) (keeps : ∀ a b, f a = .ok b → g b = h a) (hm : as.mapM f = .ok bs) :
    bs.map g = as.map h := by
  rw [mapM_eq_ok_iff] at hm
  induction hm with
  | nil => rfl
  | cons hb _ ih => rw [List.map_cons, List.map_cons, keeps _ _ hb, ih]

theorem exists_mapM_iff (f : α → Except Fault β) (as : List α) :
    (∃ bs, as.mapM f = .ok bs) ↔ ∀ a ∈ as, ∃ b, f a = .ok b := by
  constructor
  · rintro ⟨bs, h⟩ a ha
    obtain ⟨b, -, hb⟩ := exists_of_mapM f as bs h a ha
    exact ⟨b, hb⟩
  · intro h
    induction as with
    | nil => exact ⟨[], rfl⟩
    | cons a as ih =>
      obtain ⟨b, hb⟩ := h a List.mem_cons_self
      obtain ⟨bs, hbs⟩ := ih fun a' ha' => h a' (List.mem_cons_of_mem a ha')
      exact ⟨b :: bs, by rw [List.mapM_cons, hb, ok_bind, hbs, ok_bind, pure_eq_ok]⟩

/-- A list is filtered by tests that all have an answer. -/
theorem exists_filter_of_filterM (test : α → Except Fault Bool) (as bs : List α)
    (h : as.filterM test = .ok bs) :
    ∃ keep : α → Bool, (∀ a ∈ as, test a = .ok (keep a)) ∧ bs = as.filter keep := by
  have gathered : ∀ (as acc cs : List α), List.filterAuxM test as acc = .ok cs →
      (∀ a ∈ as, test a = .ok ((test a).toOption.getD false)) ∧
        cs = (as.filter fun a => (test a).toOption.getD false).reverse ++ acc := by
    intro as
    induction as with
    | nil =>
      intro acc cs hc
      cases hc
      exact ⟨by simp, rfl⟩
    | cons a as ih =>
      intro acc cs hc
      obtain ⟨b, hb, hrest⟩ := (bind_eq_ok_iff _ _ _).mp hc
      obtain ⟨answers, rfl⟩ := ih _ cs hrest
      have answer : (test a).toOption.getD false = b := by rw [hb]; rfl
      refine ⟨List.forall_mem_cons.mpr ⟨by rw [answer, hb], answers⟩, ?_⟩
      cases b <;> simp [answer]
  obtain ⟨cs, hcs, hbs⟩ := (bind_eq_ok_iff _ _ _).mp h
  cases hbs
  obtain ⟨answers, rfl⟩ := gathered as [] cs hcs
  exact ⟨_, answers, by simp⟩

theorem exists_filterM_iff (test : α → Except Fault Bool) (as : List α) :
    (∃ bs, as.filterM test = .ok bs) ↔ ∀ a ∈ as, ∃ b, test a = .ok b := by
  constructor
  · rintro ⟨bs, h⟩ a ha
    obtain ⟨keep, answers, -⟩ := exists_filter_of_filterM test as bs h
    exact ⟨keep a, answers a ha⟩
  · intro h
    have gathered : ∀ acc, ∃ bs, List.filterAuxM test as acc = .ok bs := by
      induction as with
      | nil => exact fun acc => ⟨acc, rfl⟩
      | cons a as ih =>
        intro acc
        obtain ⟨b, hb⟩ := h a List.mem_cons_self
        obtain ⟨bs, hbs⟩ :=
          ih (fun a' ha' => h a' (List.mem_cons_of_mem a ha')) (cond b (a :: acc) acc)
        exact ⟨bs, by rw [List.filterAuxM, hb, ok_bind]; exact hbs⟩
    obtain ⟨bs, hbs⟩ := gathered []
    exact ⟨bs.reverse, by rw [List.filterM, hbs]; rfl⟩

theorem filterM_eq_filter (test : α → Except Fault Bool) (keep : α → Bool)
    (as : List α) (h : ∀ a ∈ as, test a = .ok (keep a)) :
    as.filterM test = .ok (as.filter keep) := by
  obtain ⟨bs, hbs⟩ := (exists_filterM_iff test as).mpr fun a ha => ⟨_, h a ha⟩
  obtain ⟨kept, answers, rfl⟩ := exists_filter_of_filterM test as bs hbs
  have same : as.filter kept = as.filter keep :=
    List.filter_congr fun a ha => Except.ok.inj ((answers a ha).symm.trans (h a ha))
  rw [hbs, same]

/-- A list is not mapped because of the fault of one of its elements. -/
theorem error_of_mapM (f : α → Except Fault β) (as : List α) (e : Fault)
    (h : as.mapM f = .error e) : ∃ a ∈ as, f a = .error e := by
  induction as with
  | nil => cases h
  | cons a as ih =>
    rw [List.mapM_cons] at h
    obtain ha | ⟨b, -, h⟩ := (bind_eq_error_iff _ _ _).mp h
    · exact ⟨a, List.mem_cons_self, ha⟩
    · obtain hrest | ⟨bs, -, h⟩ := (bind_eq_error_iff _ _ _).mp h
      · obtain ⟨a', hmem, ha'⟩ := ih hrest
        exact ⟨a', List.mem_cons_of_mem a hmem, ha'⟩
      · cases h

/-- A list is not filtered because of the fault of one of the tests. -/
theorem error_of_filterM (test : α → Except Fault Bool) (as : List α) (e : Fault)
    (h : as.filterM test = .error e) : ∃ a ∈ as, test a = .error e := by
  have gathered : ∀ acc, List.filterAuxM test as acc = .error e → ∃ a ∈ as, test a = .error e := by
    clear h
    induction as with
    | nil => exact fun acc h => (by cases h)
    | cons a as ih =>
      intro acc h
      obtain ha | ⟨b, -, hrest⟩ := (bind_eq_error_iff _ _ _).mp h
      · exact ⟨a, List.mem_cons_self, ha⟩
      · obtain ⟨a', hmem, ha'⟩ := ih _ hrest
        exact ⟨a', List.mem_cons_of_mem a hmem, ha'⟩
  obtain h | ⟨bs, -, h⟩ := (bind_eq_error_iff _ _ _).mp h
  · exact gathered [] h
  · cases h

/-- Two computations that have only one fault can change places. -/
theorem bind_comm_of_fault {γ : Type} (x : Except Fault α) (y : Except Fault β) (e : Fault)
    (hx : ∀ f, x = .error f → f = e) (hy : ∀ f, y = .error f → f = e)
    (g : α → β → Except Fault γ) :
    (x >>= fun a => y >>= fun b => g a b) = (y >>= fun b => x >>= fun a => g a b) := by
  cases x with
  | ok a => cases y <;> rfl
  | error f =>
    cases y with
    | ok b => rfl
    | error f' => rw [hx f rfl, hy f' rfl, error_bind, error_bind]

/-- What every step of a loop preserves holds after the loop. -/
theorem foldlM_preserves (P : β → Prop) (f : β → α → Except Fault β) (as : List α) (b c : β)
    (step : ∀ b, ∀ a ∈ as, ∀ b', P b → f b a = .ok b' → P b') (hb : P b)
    (h : as.foldlM f b = .ok c) : P c := by
  induction as generalizing b with
  | nil =>
    cases h
    exact hb
  | cons a as ih =>
    rw [List.foldlM_cons] at h
    obtain ⟨b', hb', hrest⟩ := (bind_eq_ok_iff _ _ _).mp h
    apply ih b' (fun b a' ha => step b a' (List.mem_cons_of_mem a ha)) _ hrest
    exact step b a List.mem_cons_self b' hb hb'

/-- Loops agree when their steps do, as long as what the steps rely on is kept. -/
theorem foldlM_congr (P : β → Prop) (f g : β → α → Except Fault β) (as : List α) (b : β)
    (same : ∀ b, ∀ a ∈ as, P b → f b a = g b a)
    (keeps : ∀ b, ∀ a ∈ as, ∀ b', P b → g b a = .ok b' → P b') (hb : P b) :
    as.foldlM f b = as.foldlM g b := by
  induction as generalizing b with
  | nil => rfl
  | cons a as ih =>
    rw [List.foldlM_cons, List.foldlM_cons, same b a List.mem_cons_self hb]
    cases hg : g b a with
    | error e => rfl
    | ok b' =>
      apply ih b' (fun b a' ha => same b a' (List.mem_cons_of_mem a ha))
        (fun b a' ha => keeps b a' (List.mem_cons_of_mem a ha))
      exact keeps b a List.mem_cons_self b' hb hg

/-- A loop does not depend on the order of its elements when any two steps can change places. -/
theorem foldlM_perm (P : β → Prop) (R : α → α → Prop) (f : β → α → Except Fault β)
    (symm : ∀ {a a'}, R a a' → R a' a) {as as' : List α} (h : as.Perm as')
    (apart : as.Pairwise R)
    (keeps : ∀ b, ∀ a ∈ as, ∀ b', P b → f b a = .ok b' → P b')
    (comm : ∀ b, ∀ a ∈ as, ∀ a' ∈ as, P b → R a a' →
      (f b a >>= fun b' => f b' a') = (f b a' >>= fun b' => f b' a))
    (b : β) (hb : P b) : as.foldlM f b = as'.foldlM f b := by
  induction h generalizing b with
  | nil => rfl
  | cons a _ ih =>
    obtain ⟨-, apart⟩ := List.pairwise_cons.mp apart
    rw [List.foldlM_cons, List.foldlM_cons]
    cases hf : f b a with
    | error e => rfl
    | ok b' =>
      apply ih apart (fun b a' ha => keeps b a' (List.mem_cons_of_mem a ha))
      · intro b a' ha a'' ha'
        exact comm b a' (List.mem_cons_of_mem a ha) a'' (List.mem_cons_of_mem a ha')
      · exact keeps b a List.mem_cons_self b' hb hf
  | swap a a' rest =>
    have pair : R a' a := (List.pairwise_cons.mp apart).1 a List.mem_cons_self
    have step := comm b a' List.mem_cons_self a (List.mem_cons_of_mem a' List.mem_cons_self) hb pair
    simp only [List.foldlM_cons, ← bind_assoc]
    rw [step]
  | trans h _ ih ih' =>
    rw [ih apart keeps comm b hb]
    apply ih' ((h.pairwise_iff symm).mp apart) _ _ b hb
    · exact fun b a ha => keeps b a (h.mem_iff.mpr ha)
    · exact fun b a ha a' ha' => comm b a (h.mem_iff.mpr ha) a' (h.mem_iff.mpr ha')

end Chronoplan
