import Chronoplan.Proofs.Network.Mirror
import Chronoplan.Proofs.Sorting.Order
import Chronoplan.Proofs.State.Maps

/-!
# Enumeration of a state

Facts are enumerated by category, name and the texts of their entities. The content of a state
decides the order as far as these tell facts apart, and what is read off an enumeration with it.
They do not tell the number 1 from the text "1", and they tell the number 1 from the truth value
that stands for the same entity.
-/

set_option autoImplicit false

namespace Chronoplan

/-! ### Spellings -/

theorem Value.eq_of_entity_of_text {a b : Value} (ha : a.isEntity = true) (hb : b.isEntity = true)
    (entity : a.entity = b.entity) (text : a.text = b.text) : a = b := by
  obtain rfl | ⟨x, rfl⟩ | ⟨m, rfl⟩ | ⟨s, rfl⟩ := Value.isEntity_cases ha <;>
    obtain rfl | ⟨y, rfl⟩ | ⟨n, rfl⟩ | ⟨t, rfl⟩ := Value.isEntity_cases hb
  case inr.inl.inr.inl => cases x <;> cases y <;> simp_all [Value.entity]
  case inr.inl.inr.inr.inl =>
    cases x <;> (cases (Entity.number.inj entity); exact absurd text (by decide))
  case inr.inr.inl.inr.inl =>
    cases y <;> (cases (Entity.number.inj entity); exact absurd text (by decide))
  all_goals simp_all [Value.entity]

/-- Keys that stand for the same fact in the same texts are one key. -/
theorem FactKey.eq_of_fact_of_texts {a b : FactKey} (ha : a.Plain) (hb : b.Plain)
    (fact : a.fact = b.fact) (texts : a.entityTexts = b.entityTexts) : a = b := by
  have entities : ∀ as bs : List Value, (∀ v ∈ as, v.isEntity = true) →
      (∀ v ∈ bs, v.isEntity = true) → as.map Value.entity = bs.map Value.entity →
      as.map Value.text = bs.map Value.text → as = bs := by
    intro as
    induction as with
    | nil =>
      intro bs _ _ same _
      exact (List.map_eq_nil_iff.mp same.symm).symm
    | cons a as ih =>
      intro bs has hbs same texts
      obtain ⟨b, bs, rfl, here, later⟩ := List.map_eq_cons_iff.mp same.symm
      obtain ⟨text, texts⟩ := List.cons.inj texts
      obtain ⟨first, rest⟩ := List.forall_mem_cons.mp has
      obtain ⟨first', rest'⟩ := List.forall_mem_cons.mp hbs
      rw [Value.eq_of_entity_of_text first first' here.symm text, ih bs rest rest' later.symm texts]
  obtain ⟨category, name, parts⟩ := a
  obtain ⟨category', name', parts'⟩ := b
  obtain ⟨⟨c, rfl⟩, ⟨n, rfl⟩, ha⟩ := ha
  obtain ⟨⟨c', rfl⟩, ⟨n', rfl⟩, hb⟩ := hb
  obtain ⟨rfl, rfl, same⟩ := Fact.mk.inj fact
  rw [entities parts parts' ha hb same texts]
  rfl

namespace State

/-- Equal keys of the two states are spelled in the same texts. -/
def SpelledAlike (s s' : State) : Prop :=
  ∀ e ∈ s.facts, ∀ e' ∈ s'.facts, e.1.same e'.1 = true → e.1.entityTexts = e'.1.entityTexts

/-- No two facts of the state have the same category, name and texts of entities. -/
def ToldApart (s : State) : Prop := s.facts.Pairwise fun e e' => e.1.rank ≠ e'.1.rank

instance (s s' : State) : Decidable (SpelledAlike s s') :=
  inferInstanceAs (Decidable (∀ e ∈ s.facts, ∀ e' ∈ s'.facts,
    e.1.same e'.1 = true → e.1.entityTexts = e'.1.entityTexts))

instance (s : State) : Decidable s.ToldApart :=
  inferInstanceAs (Decidable (s.facts.Pairwise fun e e' => e.1.rank ≠ e'.1.rank))

/-- The same facts with equal values. -/
abbrev Alike (e e' : FactKey × Value) : Prop := e.1 = e'.1 ∧ e.2.alike e'.2 = true

section

variable {tuples tuples' : Bool} {defaults defaults' : Table Value Value}
  {history history' : History} {s s' : State} (h : s.Holds tuples defaults history)
  (h' : s'.Holds tuples' defaults' history') (equal : s.same s' = true)

/-! ### Facts of equal states -/

include h h' equal in
theorem Holds.exists_of_same (e : FactKey × Value) (he : e ∈ s.facts) :
    ∃ e' ∈ s'.facts, e.1.same e'.1 = true ∧ e.2.alike e'.2 = true := by
  obtain ⟨facts, -⟩ := Bool.and_eq_true_iff.mp equal
  obtain ⟨-, all⟩ := Bool.and_eq_true_iff.mp facts
  have found := List.all_eq_true.mp all e he
  have plain := h.leaves.plain e he
  rw [h'.leaves.stored e.1 plain] at found
  split at found
  · next v left =>
    obtain ⟨e', he', fact, rfl⟩ := h'.leaves.exists_of_latest plain left
    refine ⟨e', he', ?_, found⟩
    rw [FactKey.same_eq_fact plain (h'.leaves.plain e' he'), beq_iff_eq]
    exact fact.symm
  · cases found

include h h' equal in
theorem Holds.alike_of_same (spelled : SpelledAlike s s') (e : FactKey × Value) (he : e ∈ s.facts) :
    ∃ e' ∈ s'.facts, Alike e e' := by
  obtain ⟨e', he', same, value⟩ := h.exists_of_same h' equal e he
  have plain := h.leaves.plain e he
  have plain' := h'.leaves.plain e' he'
  have fact := beq_iff_eq.mp ((FactKey.same_eq_fact plain plain').symm.trans same)
  exact ⟨e', he', FactKey.eq_of_fact_of_texts plain plain' fact (spelled e he e' he' same), value⟩

theorem Holds.keys_nodup (h : s.Holds tuples defaults history) : (Table.keys s.facts).Nodup := by
  refine List.Nodup.of_map FactKey.fact ?_
  have once := h.leaves.once
  rw [Table.keys, Table.relabel, List.map_map] at once
  rw [Table.keys, List.map_map]
  exact once

include h h' equal in
theorem Holds.keys_perm (spelled : SpelledAlike s s') :
    (Table.keys s.facts).Perm (Table.keys s'.facts) := by
  obtain ⟨facts, -⟩ := Bool.and_eq_true_iff.mp equal
  obtain ⟨length, -⟩ := Bool.and_eq_true_iff.mp facts
  have within : Table.keys s.facts ⊆ Table.keys s'.facts := by
    intro k hk
    obtain ⟨e, he, rfl⟩ := List.mem_map.mp hk
    obtain ⟨e', he', key, -⟩ := h.alike_of_same h' equal spelled e he
    exact List.mem_map.mpr ⟨e', he', key.symm⟩
  refine (List.subperm_of_subset h.keys_nodup within).perm_of_length_le ?_
  simp [Table.keys, beq_iff_eq.mp length]

include h h' equal in
theorem Holds.isWritable_eq (spelled : SpelledAlike s s') : s.isWritable = s'.isWritable := by
  have keys : ∀ s : State, s.isWritable =
      (Table.keys s.facts).all fun k => Value.areWritable k.entities := by
    intro s
    rw [Table.keys, List.all_map]
    rfl
  rw [keys, keys, (h.keys_perm h' equal spelled).all_eq]

/-! ### Enumerations of equal states -/

/-- The facts in the order of enumeration. -/
def ordered (s : State) : List (FactKey × Value) :=
  stableSort (fun a b => a.1.isBefore b.1) s.facts

theorem ordered_perm (s : State) : s.ordered.Perm s.facts := stableSort_perm _ _

theorem Holds.ordered_ascending (h : s.Holds tuples defaults history) :
    Ascending FactKey.rank (Table.keys s.ordered) := by
  have compares : ComparesBy (fun e : FactKey × Value => e.1.rank)
      (fun a b => a.1.isBefore b.1) s.facts := by
    intro a ha b hb
    have titled := (h.leaves.plain a ha).titled
    simp only [FactKey.isBefore, FactKey.before_eq titled (h.leaves.plain b hb).titled]
  exact List.pairwise_map.mpr (stableSort_ascending s.facts compares)

include h h' equal in
theorem Holds.ordered_keys_perm (spelled : SpelledAlike s s') :
    (Table.keys s.ordered).Perm (Table.keys s'.ordered) :=
  ((s.ordered_perm.map Prod.fst).trans (h.keys_perm h' equal spelled)).trans
    (s'.ordered_perm.map Prod.fst).symm

include h h' equal in
/-- The texts of the facts come in an order of their own. -/
theorem Holds.ranks_eq (spelled : SpelledAlike s s') :
    (Table.keys s.ordered).map FactKey.rank = (Table.keys s'.ordered).map FactKey.rank :=
  List.Perm.eq_of_pairwise (fun _ _ _ _ le ge => le_antisymm le ge)
    (List.pairwise_map.mpr h.ordered_ascending) (List.pairwise_map.mpr h'.ordered_ascending)
    ((h.ordered_keys_perm h' equal spelled).map FactKey.rank)

include h h' equal in
theorem Holds.ordered_keys_eq (spelled : SpelledAlike s s') (apart : s.ToldApart) :
    Table.keys s.ordered = Table.keys s'.ordered := by
  have perm := h.ordered_keys_perm h' equal spelled
  have once : ((Table.keys s.facts).map FactKey.rank).Nodup := by
    rw [Table.keys, List.map_map]
    exact List.pairwise_map.mpr apart
  have once : ((Table.keys s.ordered).map FactKey.rank).Nodup :=
    ((s.ordered_perm.map Prod.fst).map FactKey.rank).nodup_iff.mpr once
  refine List.Perm.eq_of_pairwise ?_ h.ordered_ascending h'.ordered_ascending perm
  intro a b ha hb le ge
  exact List.inj_on_of_nodup_map once ha (perm.mem_iff.mpr hb) (le_antisymm le ge)

include h h' equal in
theorem Holds.ordered_alike (spelled : SpelledAlike s s') (apart : s.ToldApart) :
    List.Forall₂ Alike s.ordered s'.ordered := by
  have keys := h.ordered_keys_eq h' equal spelled apart
  obtain ⟨length, pairs⟩ := List.forall₂_iff_zip.mp (keys_eq_iff.mp keys)
  refine List.forall₂_iff_zip.mpr ⟨length, fun {e e'} both => ?_⟩
  obtain ⟨he, he'⟩ := List.of_mem_zip both
  refine ⟨pairs both, ?_⟩
  obtain ⟨e₁, he₁, key, value⟩ := h.alike_of_same h' equal spelled e (s.ordered_perm.subset he)
  have one : e₁ = e' := List.inj_on_of_nodup_map h'.keys_nodup he₁ (s'.ordered_perm.subset he')
    (key.symm.trans (pairs both))
  exact one ▸ value

end

end State

/-! ### Equal values -/

theorem Number.place?_eq_of_alike {x y : Number} (h : x.alike y = true) : x.place? = y.place? := by
  rcases Bool.or_eq_true_iff.mp h with equal | same
  · obtain ⟨p, hx, hy⟩ := (eq_iff_place? x y).mp equal
    rw [hx, hy]
  · split at same
    · next a b =>
      unfold Binary64.sameNaN at same
      split at same
      · rfl
      · cases same
    · cases same

theorem Number.eq_congr_of_alike {x y : Number} (h : x.alike y = true) (z : Number) :
    x.eq z = y.eq z := by
  rw [Bool.eq_iff_iff, eq_iff_place?, eq_iff_place?, place?_eq_of_alike h]

theorem Value.plain_cases {x : Value} (h : State.accepts false x = true) :
    x = .null ∨ (∃ n, x = .num n) ∨ ∃ s, x = .str s := by
  unfold State.accepts at h
  split at h <;> simp_all

/-- Plain values that are equal are equal to the same values. -/
theorem Value.eq_congr_of_alike {x y : Value} (hx : State.accepts false x = true)
    (hy : State.accepts false y = true) (h : x.alike y = true) (v : Value) : x.eq v = y.eq v := by
  obtain rfl | ⟨a, rfl⟩ | ⟨a, rfl⟩ := plain_cases hx <;>
    obtain rfl | ⟨b, rfl⟩ | ⟨b, rfl⟩ := plain_cases hy
  case inr.inl.inr.inl =>
    have same : a.alike b = true := by
      rw [← h]
      cases a <;> cases b <;> simp [alike, Number.alike, sameNaN]
    cases v <;> simp [eq, Number.eq_congr_of_alike same]
  all_goals simp_all [alike, eq, sameNaN]

/-! ### What is read off an enumeration -/

/-- Mappings of mappings with equal values. -/
abbrev Nested : Value → Value → Prop := Mappings (Mappings fun v v' => v.alike v' = true)

theorem nest_twin {out out' : Table Value Value} (h : Twin Nested out out')
    {category name entities v v' : Value} (hc : category.IsText) (hn : name.IsText)
    (he : entities.IsText) (like : v.alike v' = true) :
    Twin Nested (State.nest category name entities v out)
      (State.nest category name entities v' out') := by
  have names := h.inner category
  have leaves := (names.inner name).insert he like
  exact h.insert hc ⟨_, _, rfl, rfl, names.insert hn ⟨_, _, rfl, rfl, leaves⟩⟩

namespace State

theorem nested_of_alike (fs fs' : List (FactKey × Value)) (plain : ∀ e ∈ fs, e.1.Plain)
    (alike : List.Forall₂ Alike fs fs') (out out' : Table Value Value) (h : Twin Nested out out') :
    Twin Nested
      (fs.foldl (fun out e => nest e.1.category e.1.name (.str (",".intercalate e.1.entityTexts))
        e.2 out) out)
      (fs'.foldl (fun out e => nest e.1.category e.1.name (.str (",".intercalate e.1.entityTexts))
        e.2 out) out') := by
  induction alike generalizing out out' with
  | nil => exact h
  | @cons e e' _ _ both _ ih =>
    obtain ⟨here, later⟩ := List.forall_mem_cons.mp plain
    obtain ⟨k, v⟩ := e
    obtain ⟨_, v'⟩ := e'
    obtain ⟨rfl, value⟩ := both
    exact ih later _ _ (nest_twin h here.category here.name ⟨_, rfl⟩ value)

theorem matching_of_alike (fs fs' : List (FactKey × Value))
    (accepted : ∀ e ∈ fs, accepts false e.2 = true)
    (accepted' : ∀ e ∈ fs', accepts false e.2 = true) (alike : List.Forall₂ Alike fs fs')
    (category name v : Value) :
    (fs.filter fun e => e.1.category.eq category && e.1.name.eq name && e.2.eq v).map
        (fun e => e.1.entities) =
      (fs'.filter fun e => e.1.category.eq category && e.1.name.eq name && e.2.eq v).map
        fun e => e.1.entities := by
  induction alike with
  | nil => rfl
  | @cons e e' _ _ both _ ih =>
    obtain ⟨here, later⟩ := List.forall_mem_cons.mp accepted
    obtain ⟨here', later'⟩ := List.forall_mem_cons.mp accepted'
    obtain ⟨k, x⟩ := e
    obtain ⟨_, x'⟩ := e'
    obtain ⟨rfl, value⟩ := both
    simp only [List.filter_cons, Value.eq_congr_of_alike here here' value v]
    split
    · simp only [List.map_cons, ih later later']
    · exact ih later later'

/-- The content of a state decides whether it is enumerated, and its enumeration as far as the texts
of the keys go, when equal keys are written in the same texts. Where the texts tell all facts apart,
equal states enumerate the same facts with equal values, find the same entities and export equal
mappings. -/
theorem enumerated_by_content (tuples : Bool) (defaults defaults' : Table Value Value)
    (history history' : History) (s s' : State) (reached : s.Reached tuples defaults history)
    (reached' : s'.Reached tuples defaults' history') (equal : s.same s' = true)
    (spelled : SpelledAlike s s') :
    (s.isWritable = true → ∃ fs fs', s.enumerate = .ok fs ∧ s'.enumerate = .ok fs' ∧
      fs.map (fun e => e.1.rank) = fs'.map (fun e => e.1.rank) ∧
      (s.ToldApart → List.Forall₂ Alike fs fs' ∧
        (tuples = false → ∀ category name v,
          s.entitiesWhere category name v = s'.entitiesWhere category name v) ∧
        ∃ m m', s.toValue = .ok m ∧ s'.toValue = .ok m' ∧ m.eq m' = true)) ∧
    (s.isWritable = false →
      s.enumerate = .error .malformed ∧ s'.enumerate = .error .malformed) := by
  have h := reached.holds
  have h' := reached'.holds
  have agree := h.isWritable_eq h' equal spelled
  refine ⟨fun writable => ?_, fun long => ⟨enumerate_unwritable long,
    enumerate_unwritable (agree.symm.trans long)⟩⟩
  have enumerated := h.enumerate writable
  have enumerated' := h'.enumerate (agree.symm.trans writable)
  have ranks := h.ranks_eq h' equal spelled
  simp only [Table.keys, List.map_map] at ranks
  refine ⟨s.ordered, s'.ordered, enumerated, enumerated', ranks, fun apart => ?_⟩
  have alike := h.ordered_alike h' equal spelled apart
  refine ⟨alike, ?_, ?_⟩
  · rintro rfl category name v
    have accepted : ∀ e ∈ s.ordered, accepts false e.2 = true :=
      fun e he => h.accepted e (s.ordered_perm.subset he)
    have accepted' : ∀ e ∈ s'.ordered, accepts false e.2 = true :=
      fun e he => h'.accepted e (s'.ordered_perm.subset he)
    rw [entitiesWhere, entitiesWhere, enumerated, enumerated']
    exact congrArg Except.ok (matching_of_alike _ _ accepted accepted' alike category name v)
  · have plain : ∀ e ∈ s.ordered, e.1.Plain :=
      fun e he => h.leaves.plain e (s.ordered_perm.subset he)
    have nested := nested_of_alike _ _ plain alike [] [] Twin.nil
    refine ⟨_, _, by rw [toValue, enumerated]; rfl, by rw [toValue, enumerated']; rfl, ?_⟩
    exact nested.dict_eq (Twin.mappings_like (Twin.mappings_like fun _ _ like => like))

end State

namespace Larder

/-! ### Shelves

The shelf 1 is not the shelf "1", and it is the shelf that a truth value stands for. -/

def stocked (shelves : List Value) : List (FactKey × Value) :=
  shelves.map fun shelf => (first shelf, .int 3)

def shelves (names : List Value) : Except Fault State :=
  State.ofFacts false ((stocked names).map State.asFact) .null

theorem shelves_reached (names : List Value) (entities : ∀ v ∈ names, v.isEntity = true)
    (s : State) (h : shelves names = .ok s) : s.Reached false [] (recorded (stocked names)) := by
  refine .loaded _ _ .null s (State.written_asFact _) ?_ rfl h
  intro e he
  obtain ⟨v, hv, rfl⟩ := List.mem_map.mp he
  exact first_plain v (entities v hv)

/-- What can be read off two states holds of the states that are loaded. -/
theorem exists_shelves {α : Type} (names names' : List Value) (read : State → State → α) (x : α)
    (h : (shelves names).toOption.bind (fun s => (shelves names').toOption.map (read s)) = some x) :
    ∃ s s', shelves names = .ok s ∧ shelves names' = .ok s' ∧ read s s' = x := by
  obtain ⟨s, hs, h⟩ := Option.bind_eq_some_iff.mp h
  obtain ⟨s', hs', h⟩ := Option.map_eq_some_iff.mp h
  exact ⟨s, s', toOption_eq_some_iff.mp hs, toOption_eq_some_iff.mp hs', h⟩

def found (s : State) : Option (List (List String)) :=
  (s.entitiesWhere defaultCategory (.str "stock") (.int 3)).toOption.map
    (·.map (·.map Value.display))

/-- Equal states find the same entities in different orders and export different mappings. -/
theorem shelved_differently :
    (∃ s s' : State, s.Reached false [] (recorded (stocked [.int 1, .str "1"])) ∧
      s'.Reached false [] (recorded (stocked [.str "1", .int 1])) ∧ s.same s' = true ∧
      found s = some [["1"], ["'1'"]] ∧ found s' = some [["'1'"], ["1"]]) ∧
    ∃ (s s' : State) (m m' : Value), s.Reached false [] (recorded (stocked [.bool true])) ∧
      s'.Reached false [] (recorded (stocked [.int 1])) ∧ s.same s' = true ∧
      s.toValue = .ok m ∧ s'.toValue = .ok m' ∧ m.eq m' = false := by
  constructor
  · obtain ⟨s, s', hs, hs', read⟩ := exists_shelves [.int 1, .str "1"] [.str "1", .int 1]
      (fun s s' => (s.same s', found s, found s'))
      (true, some [["1"], ["'1'"]], some [["'1'"], ["1"]]) (by decide +kernel)
    obtain ⟨same, read⟩ := Prod.mk.inj read
    obtain ⟨finds, finds'⟩ := Prod.mk.inj read
    exact ⟨s, s', shelves_reached _ (by decide) s hs, shelves_reached _ (by decide) s' hs', same,
      finds, finds'⟩
  · obtain ⟨s, s', hs, hs', read⟩ := exists_shelves [.bool true] [.int 1]
      (fun s s' => (s.same s', s.toValue.toOption.bind fun m =>
        s'.toValue.toOption.map fun m' => m.eq m')) (true, some false) (by decide +kernel)
    obtain ⟨same, read⟩ := Prod.mk.inj read
    obtain ⟨m, hm, read⟩ := Option.bind_eq_some_iff.mp read
    obtain ⟨m', hm', differ⟩ := Option.map_eq_some_iff.mp read
    exact ⟨s, s', m, m', shelves_reached _ (by decide) s hs, shelves_reached _ (by decide) s' hs',
      same, toOption_eq_some_iff.mp hm, toOption_eq_some_iff.mp hm', differ⟩

/-- Shelves with texts for names are found in one order, whichever is stocked first. -/
theorem shelved_alike : ∃ s s' : State,
    s.Reached false [] (recorded (stocked [.str "low", .int 2])) ∧
    s'.Reached false [] (recorded (stocked [.int 2, .str "low"])) ∧ s.same s' = true ∧
    s.SpelledAlike s' ∧ s.ToldApart ∧ found s = some [["2"], ["'low'"]] ∧
    (∃ fs fs', s.enumerate = .ok fs ∧ s'.enumerate = .ok fs' ∧
      List.Forall₂ State.Alike fs fs') ∧
    ∀ category name v, s.entitiesWhere category name v = s'.entitiesWhere category name v := by
  obtain ⟨s, s', hs, hs', read⟩ := exists_shelves [.str "low", .int 2] [.int 2, .str "low"]
    (fun s s' => (s.same s' && s.isWritable && decide (s.SpelledAlike s' ∧ s.ToldApart), found s))
    (true, some [["2"], ["'low'"]]) (by decide +kernel)
  simp only [Prod.mk.injEq, Bool.and_eq_true, decide_eq_true_eq] at read
  obtain ⟨⟨⟨same, writable⟩, spelled, apart⟩, finds⟩ := read
  have reached := shelves_reached _ (by decide) s hs
  have reached' := shelves_reached _ (by decide) s' hs'
  obtain ⟨fs, fs', enumerated, enumerated', -, determined⟩ :=
    (State.enumerated_by_content false [] [] _ _ s s' reached reached' same spelled).1 writable
  obtain ⟨alike, entities, -⟩ := determined apart
  exact ⟨s, s', reached, reached', same, spelled, apart, finds,
    ⟨fs, fs', enumerated, enumerated', alike⟩, entities rfl⟩

end Larder

end Chronoplan
