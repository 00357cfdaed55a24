import Chronoplan.Planner.Execution
import Chronoplan.Proofs.State.Enumeration

/-!
# Export of a state

A state is exported as mappings in mappings, in which each fact has a place: its category, its name
and the texts of its entities joined by commas. Facts with one place are written over each other
there, and the last of them in the enumeration is kept. So the export loses facts exactly when two
of them share a place, which they do not where the texts tell all facts apart and hold no commas.
-/

set_option autoImplicit false

namespace Chronoplan

/-! ### Mappings in mappings -/

namespace Value

/-- The entries of a mapping. -/
def entries : Value → Table Value Value
  | .dict kvs => kvs
  | _ => []

theorem field?_eq (v : Value) (name : String) :
    v.field? name = v.entries.find? alike (.str name) := by
  cases v <;> rfl

/-- What is found on a path of texts. -/
def at? (v : Value) : List String → Option Value
  | [] => some v
  | k :: path => (v.field? k).bind fun inner => inner.at? path

/-- A value at the end of a path, in place of what was there. -/
def put (leaf : Value) : List String → Value → Value
  | [], _ => leaf
  | k :: path, v =>
    .dict (v.entries.insert alike (.str k) (put leaf path ((v.field? k).getD (.dict []))))

/-- What mappings hold in a given depth, by the texts that lead there. -/
def leaves : Nat → Value → Table (List String) Value
  | 0, v => [([], v)]
  | depth + 1, v =>
    v.entries.flatMap fun e => (leaves depth e.2).map fun leaf => (e.1.text :: leaf.1, leaf.2)

/-- Mappings of texts in mappings of texts, down to a given depth. -/
def Layered : Nat → Value → Prop
  | 0, _ => True
  | depth + 1, v => ∃ t, v = .dict t ∧ Named t ∧ ∀ e ∈ t, Layered depth e.2

theorem layered_nil (depth : Nat) : Layered depth (.dict []) := by
  cases depth with
  | zero => trivial
  | succ depth => exact ⟨[], rfl, ⟨by rintro _ ⟨⟩, List.nodup_nil⟩, by rintro _ ⟨⟩⟩

theorem Layered.inner {depth : Nat} {v : Value} (h : Layered (depth + 1) v) (k : String) :
    Layered depth ((v.field? k).getD (.dict [])) := by
  obtain ⟨t, rfl, -, below⟩ := h
  cases found : (Value.dict t).field? k with
  | none => exact layered_nil depth
  | some inner =>
    obtain ⟨e, he, -, rfl⟩ := exists_of_find? found
    exact below e he

theorem Layered.put (leaf : Value) (path : List String) (v : Value)
    (h : Layered path.length v) : Layered path.length (put leaf path v) := by
  induction path generalizing v with
  | nil => trivial
  | cons k path ih =>
    have inner := ih _ (h.inner k)
    obtain ⟨t, rfl, named, below⟩ := h
    refine ⟨_, rfl, named.insert ⟨k, rfl⟩ _, fun e he => ?_⟩
    obtain new | ⟨e', he', old⟩ := (mem_insert_parts he).2
    · exact new ▸ inner
    · exact old ▸ below e' he'

theorem field?_insert {t : Table Value Value} (named : Named t) (k j : String) (v : Value) :
    (Value.dict (t.insert alike (.str k) v)).field? j =
      if k = j then some v else (Value.dict t).field? j := by
  have texts := (named.insert ⟨k, rfl⟩ v).texts
  rw [field?, lookup, ← find?_relabel alike_eq_texts ⟨j, rfl⟩ texts,
    insert_relabel alike_eq_texts v ⟨k, rfl⟩ named.texts,
    Table.find?_insert (· == ·) _ _ _ _ (fun _ _ => BEq.comm) (fun _ _ _ => BEq.trans),
    find?_relabel alike_eq_texts ⟨j, rfl⟩ named.texts]
  simp only [text, beq_iff_eq]
  rfl

/-- A write is found at the end of its path, and other paths lead where they did. -/
theorem at?_put (leaf : Value) (path path' : List String) (v : Value)
    (h : Layered path.length v) (length : path'.length = path.length) :
    (put leaf path v).at? path' = if path = path' then some leaf else v.at? path' := by
  induction path generalizing path' v with
  | nil => rw [List.length_eq_zero_iff.mp length]; rfl
  | cons k path ih =>
    obtain ⟨k', path', rfl⟩ := List.exists_cons_of_length_eq_add_one length
    have inner := ih path' _ (h.inner k) (Nat.succ.inj length)
    obtain ⟨t, rfl, named, -⟩ := h
    rw [put, at?, entries, field?_insert named]
    by_cases key : k = k'
    · subst key
      rw [if_pos rfl, Option.bind_some, inner]
      by_cases rest : path = path'
      · simp [rest]
      · rw [if_neg rest, if_neg fun same => rest (List.cons.inj same).2, at?]
        -- A mapping that is opened for the write leads nowhere else.
        cases (Value.dict t).field? k with
        | some x => rfl
        | none =>
          cases path' with
          | nil => exact absurd (List.length_eq_zero_iff.mp (Nat.succ.inj length).symm) rest
          | cons => rfl
    · rw [if_neg key, if_neg fun same => key (List.cons.inj same).1, at?]

theorem mem_leaves_iff (depth : Nat) (v : Value) (h : Layered depth v) (path : List String)
    (leaf : Value) :
    (path, leaf) ∈ leaves depth v ↔ path.length = depth ∧ v.at? path = some leaf := by
  induction depth generalizing v path with
  | zero =>
    rw [List.length_eq_zero_iff, leaves, List.mem_singleton, Prod.mk.injEq]
    constructor
    · rintro ⟨rfl, rfl⟩
      exact ⟨rfl, rfl⟩
    · rintro ⟨rfl, found⟩
      exact ⟨rfl, (Option.some.inj found).symm⟩
  | succ depth ih =>
    obtain ⟨t, rfl, named, below⟩ := h
    simp only [leaves, entries, List.mem_flatMap, List.mem_map, Prod.mk.injEq]
    constructor
    · rintro ⟨e, he, ⟨rest, _⟩, hl, rfl, rfl⟩
      obtain ⟨length, found⟩ := (ih e.2 (below e he) rest).mp hl
      obtain ⟨k, hk⟩ := named.texts e he
      refine ⟨congrArg Nat.succ length, ?_⟩
      have there := find?_of_mem alike_eq_texts named.texts named.once he
      rw [hk] at there ⊢
      rw [at?, field?, text, lookup, there]
      exact found
    · rintro ⟨length, found⟩
      obtain ⟨k, path, rfl⟩ := List.exists_cons_of_length_eq_add_one length
      obtain ⟨inner, there, found⟩ := Option.bind_eq_some_iff.mp found
      obtain ⟨e, he, same, rfl⟩ := exists_of_find? there
      obtain ⟨k', hk⟩ := named.texts e he
      rw [hk, alike_str, beq_iff_eq] at same
      exact ⟨e, he, (path, leaf), (ih e.2 (below e he) path).mpr ⟨Nat.succ.inj length, found⟩,
        by rw [hk, text, same], rfl⟩

theorem keys_leaves_nodup (depth : Nat) (v : Value) (h : Layered depth v) :
    (leaves depth v).keys.Nodup := by
  induction depth generalizing v with
  | zero => exact List.nodup_singleton []
  | succ depth ih =>
    obtain ⟨t, rfl, named, below⟩ := h
    have once := named.once
    rw [Table.keys, Table.relabel, List.map_map] at once
    rw [Table.keys, leaves, entries, List.map_flatMap, List.nodup_flatMap]
    -- Below one key the rests of the paths differ, and below two keys the keys do.
    constructor
    · intro e he
      have inner := (ih e.2 (below e he)).map (List.cons_injective (a := e.1.text))
      rw [Table.keys, List.map_map] at inner
      rw [List.map_map]
      exact inner
    · refine (List.pairwise_map.mp once).imp fun {e e'} differ => ?_
      simp only [Function.onFun, List.disjoint_left, List.mem_map]
      rintro _ ⟨_, ⟨l, -, rfl⟩, rfl⟩ ⟨_, ⟨l', -, rfl⟩, same⟩
      exact differ (List.cons.inj same).1.symm

/-- Values at the ends of paths, put there one after the other. -/
def putAll (entries : Table (List String) Value) (v : Value) : Value :=
  entries.foldl (fun v e => put e.2 e.1 v) v

theorem Layered.putAll {depth : Nat} {v : Value} (h : Layered depth v)
    (entries : Table (List String) Value) (length : ∀ e ∈ entries, e.1.length = depth) :
    Layered depth (putAll entries v) := by
  induction entries generalizing v with
  | nil => exact h
  | cons e entries ih =>
    obtain ⟨rfl, later⟩ := List.forall_mem_cons.mp length
    exact ih (h.put e.2 e.1 v) later

theorem at?_putAll {depth : Nat} {v : Value} (h : Layered depth v)
    (entries : Table (List String) Value) (length : ∀ e ∈ entries, e.1.length = depth)
    (path : List String) (reach : path.length = depth) :
    (putAll entries v).at? path = (entries.last? (· == ·) path).or (v.at? path) := by
  induction entries generalizing v with
  | nil => rfl
  | cons e entries ih =>
    obtain ⟨rfl, later⟩ := List.forall_mem_cons.mp length
    have first : Table.last? (· == ·) path [e] = if e.1 == path then some e.2 else none := rfl
    refine (ih (h.put e.2 e.1 v) later).trans ?_
    rw [at?_put e.2 e.1 path v h reach, ← List.singleton_append, last?_append, Option.or_assoc,
      first]
    by_cases here : e.1 = path <;> simp [here]

end Value

/-! ### Places -/

namespace FactKey

/-- Where the fact is exported. -/
def place (k : FactKey) : List String :=
  [k.category.text, k.name.text, ",".intercalate k.entityTexts]

/-- The texts of the entities can be told from their joined text. -/
structure Separable (k : FactKey) : Prop where
  plain : ∀ t ∈ k.entityTexts, ',' ∉ t.toList
  filled : k.entityTexts ≠ [""]

instance (k : FactKey) : Decidable k.Separable :=
  decidable_of_iff ((∀ t ∈ k.entityTexts, ',' ∉ t.toList) ∧ k.entityTexts ≠ [""])
    ⟨fun h => ⟨h.1, h.2⟩, fun h => ⟨h.plain, h.filled⟩⟩

theorem map_toList_injective : Function.Injective (List.map String.toList) :=
  List.map_injective_iff.mpr fun _ _ => String.toList_inj.mp

theorem texts_eq_of_joined {ts ts' : List String} (plain : ∀ t ∈ ts, ',' ∉ t.toList)
    (plain' : ∀ t ∈ ts', ',' ∉ t.toList) (filled : ts ≠ [""]) (filled' : ts' ≠ [""])
    (joined : ",".intercalate ts = ",".intercalate ts') : ts = ts' := by
  have split : ∀ ts : List String, (∀ t ∈ ts, ',' ∉ t.toList) → ts ≠ [] →
      (",".intercalate ts).toList.splitOn ',' = ts.map String.toList := by
    intro ts plain some
    rw [String.toList_intercalate]
    refine List.splitOn_intercalate ',' ?_ (by simpa using some)
    simpa using plain
  -- Joined, no texts are the same as one empty text.
  have empty : ∀ ts : List String, (∀ t ∈ ts, ',' ∉ t.toList) → ts ≠ [""] →
      ",".intercalate ts = ",".intercalate [] → ts = [] := by
    intro ts plain filled joined
    by_contra some
    have parts := split ts plain some
    rw [joined] at parts
    exact filled (map_toList_injective (parts.symm.trans rfl))
  by_cases some : ts = []
  · subst some
    exact (empty ts' plain' filled' joined.symm).symm
  · by_cases some' : ts' = []
    · subst some'
      exact empty ts plain filled joined
    · have parts := split ts plain some
      rw [joined, split ts' plain' some'] at parts
      exact (map_toList_injective parts).symm

theorem rank_eq_of_place {a b : FactKey} (ha : a.Separable) (hb : b.Separable)
    (same : a.place = b.place) : a.rank = b.rank := by
  simp only [place, List.cons.injEq, and_true] at same
  obtain ⟨category, name, joined⟩ := same
  rw [rank, rank, category, name,
    texts_eq_of_joined ha.plain hb.plain ha.filled hb.filled joined]

theorem eqAll_of_texts (vs vs' : List Value)
    (read : ∀ v ∈ vs, ∀ v' ∈ vs', v.text = v'.text → v.alike v' = true)
    (texts : vs.map Value.text = vs'.map Value.text) : Value.eqAll vs vs' = true := by
  induction vs generalizing vs' with
  | nil =>
    rw [List.map_eq_nil_iff.mp texts.symm, Value.eqAll]
  | cons v vs ih =>
    obtain ⟨v', vs', rfl, here, later⟩ := List.map_eq_cons_iff.mp texts.symm
    have first := read v List.mem_cons_self v' List.mem_cons_self here.symm
    have rest := ih vs' (fun x hx y hy => read x (List.mem_cons_of_mem v hx) y
      (List.mem_cons_of_mem v' hy)) later.symm
    rw [Value.alike] at first
    rw [Value.eqAll, first, rest]
    rfl

theorem same_of_rank {a b : FactKey} (ha : a.Titled) (hb : b.Titled)
    (read : ∀ v ∈ a.entities, ∀ v' ∈ b.entities, v.text = v'.text → v.alike v' = true)
    (rank : a.rank = b.rank) : a.same b = true := by
  obtain ⟨category, name, entities⟩ := a
  obtain ⟨category', name', entities'⟩ := b
  obtain ⟨⟨c, rfl⟩, ⟨n, rfl⟩⟩ := ha
  obtain ⟨⟨c', rfl⟩, ⟨n', rfl⟩⟩ := hb
  simp only [FactKey.rank, Value.text, entityTexts, EmbeddingLike.apply_eq_iff_eq,
    Prod.mk.injEq] at rank
  obtain ⟨rfl, rfl, texts⟩ := rank
  rw [same, eqAll_of_texts entities entities' read texts, Value.alike_str, Value.alike_str,
    beq_self_eq_true, beq_self_eq_true]
  rfl

end FactKey

namespace State

theorem entries_getD (x : Option Value) : (x.getD (.dict [])).entries = match x with
    | some (.dict kvs) => kvs
    | _ => [] := by
  cases x with
  | none => rfl
  | some v => cases v <;> rfl

theorem nest_eq_put (c n k : String) (v : Value) (out : Table Value Value) :
    Value.dict (nest (.str c) (.str n) (.str k) v out) = Value.put v [c, n, k] (.dict out) := by
  simp only [Value.put, Value.field?_eq, entries_getD]
  rfl

/-- The facts by their places, in the order of enumeration. -/
def placed (s : State) : Table (List String) Value := Table.relabel FactKey.place s.ordered

theorem toValue_eq {s : State} (titled : ∀ e ∈ s.facts, e.1.Titled)
    (writable : s.isWritable = true) : s.toValue = .ok (Value.putAll s.placed (.dict [])) := by
  have folded : ∀ (fs : List (FactKey × Value)) (out : Table Value Value),
      (∀ e ∈ fs, e.1.Titled) →
      Value.dict (fs.foldl (fun out e =>
        nest e.1.category e.1.name (.str (",".intercalate e.1.entityTexts)) e.2 out) out) =
      Value.putAll (Table.relabel FactKey.place fs) (.dict out) := by
    intro fs
    induction fs with
    | nil => exact fun out _ => rfl
    | cons e fs ih =>
      intro out titled
      obtain ⟨here, later⟩ := List.forall_mem_cons.mp titled
      obtain ⟨⟨c, n, entities⟩, v⟩ := e
      obtain ⟨⟨c, rfl⟩, ⟨n, rfl⟩⟩ := here
      rw [List.foldl_cons, ih _ later, nest_eq_put]
      rfl
  rw [toValue, enumerate_of_titled titled writable]
  exact congrArg Except.ok
    (folded s.ordered [] fun e he => titled e (s.ordered_perm.subset he))

theorem toValue_unwritable {s : State} (long : s.isWritable = false) :
    s.toValue = .error .malformed := by
  rw [toValue, enumerate_unwritable long]
  rfl

/-- No two facts have one place. -/
def Unshared (s : State) : Prop := (s.facts.map fun e => e.1.place).Nodup

instance (s : State) : Decidable s.Unshared :=
  inferInstanceAs (Decidable (s.facts.map fun e => e.1.place).Nodup)

theorem keys_placed_perm (s : State) :
    (Table.keys s.placed).Perm (s.facts.map fun e => e.1.place) := by
  rw [Table.keys, placed, Table.relabel, List.map_map]
  exact s.ordered_perm.map _

theorem length_place {s : State} : ∀ e ∈ s.placed, e.1.length = 3 := by
  intro e he
  obtain ⟨e', -, rfl⟩ := List.mem_map.mp he
  rfl

theorem layered_exported (s : State) : Value.Layered 3 (Value.putAll s.placed (.dict [])) :=
  (Value.layered_nil 3).putAll s.placed length_place

theorem at?_exported (s : State) (path : List String) (length : path.length = 3) :
    (Value.putAll s.placed (.dict [])).at? path = s.placed.last? (· == ·) path := by
  have empty : (Value.dict []).at? path = none := by
    obtain ⟨k, rest, rfl⟩ := List.exists_cons_of_length_eq_add_one length
    rfl
  rw [Value.at?_putAll (Value.layered_nil 3) s.placed length_place path length, empty,
    Option.or_none]

/-- How the facts of a state stand in what is exported of it. -/
structure Exports (s : State) (m : Value) : Prop where
  /-- At each place stands the value of the last fact that has it. -/
  found : ∀ category name key,
    m.at? [category, name, key] = s.placed.last? (· == ·) [category, name, key]
  leaves : ∀ path v, (path, v) ∈ m.leaves 3 ↔ path.length = 3 ∧ m.at? path = some v
  once : (m.leaves 3).keys.Nodup
  count : (m.leaves 3).length = (s.facts.map fun e => e.1.place).toFinset.card
  complete : (m.leaves 3).length = s.size ↔ s.Unshared
  kept : s.Unshared → ∀ e ∈ s.facts, m.at? e.1.place = some e.2

theorem exports (s : State) : s.Exports (Value.putAll s.placed (.dict [])) := by
  have layered := s.layered_exported
  have leaves := Value.mem_leaves_iff 3 _ layered
  have once := Value.keys_leaves_nodup 3 _ layered
  have places : (Value.leaves 3 (Value.putAll s.placed (.dict []))).keys.toFinset =
      (s.facts.map fun e => e.1.place).toFinset := by
    ext path
    have known : path ∈ s.facts.map (fun e => e.1.place) ↔
        ∃ v, s.placed.last? (· == ·) path = some v := by
      rw [← s.keys_placed_perm.mem_iff, ← last?_isSome_iff, Option.isSome_iff_exists]
    rw [List.mem_toFinset, List.mem_toFinset, known]
    constructor
    · intro there
      obtain ⟨⟨_, v⟩, hl, rfl⟩ := List.mem_map.mp there
      obtain ⟨length, found⟩ := (leaves _ v).mp hl
      exact ⟨v, (s.at?_exported _ length).symm.trans found⟩
    · rintro ⟨v, hv⟩
      obtain ⟨e, he, rfl⟩ := List.mem_map.mp
        ((last?_isSome_iff path s.placed).mp (Option.isSome_iff_exists.mpr ⟨v, hv⟩))
      have length := length_place e he
      exact List.mem_map.mpr
        ⟨(e.1, v), (leaves e.1 v).mpr ⟨length, (s.at?_exported e.1 length).trans hv⟩, rfl⟩
  have count : (Value.leaves 3 (Value.putAll s.placed (.dict []))).length =
      (s.facts.map fun e => e.1.place).toFinset.card := by
    rw [← places, List.toFinset_card_of_nodup once, Table.keys, List.length_map]
  refine ⟨fun c n k => s.at?_exported [c, n, k] rfl, leaves, once, count, ?_, ?_⟩
  · have size : s.size = (s.facts.map fun e => e.1.place).length := (List.length_map _).symm
    rw [count, size]
    exact Multiset.toFinset_card_eq_card_iff_nodup
  · intro unshared e he
    have nodup : (Table.keys s.placed).Nodup := s.keys_placed_perm.nodup_iff.mpr unshared
    have there : (e.1.place, e.2) ∈ s.placed :=
      List.mem_map_of_mem (s.ordered_perm.symm.subset he)
    rw [s.at?_exported _ rfl, last?_of_nodup _ nodup, find?_eq_some_iff_of_nodup _ nodup]
    exact there

/-- Entities with one text are one entity. -/
def ReadApart (s : State) : Prop := ∀ e ∈ s.facts, ∀ e' ∈ s.facts, ∀ v ∈ e.1.entities,
  ∀ v' ∈ e'.1.entities, v.text = v'.text → v.alike v' = true

instance (s : State) : Decidable s.ReadApart :=
  inferInstanceAs (Decidable (∀ e ∈ s.facts, ∀ e' ∈ s.facts, ∀ v ∈ e.1.entities,
    ∀ v' ∈ e'.1.entities, v.text = v'.text → v.alike v' = true))

theorem ReadApart.toldApart {s : State} (h : s.ReadApart)
    (titled : ∀ e ∈ s.facts, e.1.Titled)
    (apart : s.facts.Pairwise fun e e' => e.1.same e'.1 = false) : s.ToldApart := by
  refine apart.imp_of_mem fun {e e'} he he' differ rank => ?_
  rw [FactKey.same_of_rank (titled e he) (titled e' he') (h e he e' he') rank] at differ
  cases differ

theorem ToldApart.unshared {s : State} (h : s.ToldApart)
    (separable : ∀ e ∈ s.facts, e.1.Separable) : s.Unshared :=
  List.pairwise_map.mpr (h.imp_of_mem fun {e e'} he he' differ same =>
    differ (FactKey.rank_eq_of_place (separable e he) (separable e' he') same))

/-- A state whose entities can be written is exported by the places of its facts, also as the final
state of a plan, and any other is not exported. No fact is lost exactly when no two of them share a
place, and none do when their texts are told apart and can be split again. -/
theorem exported_by_place (s : State) (titled : ∀ e ∈ s.facts, e.1.Titled) :
    (s.isWritable = true → ∃ m, s.toValue = .ok m ∧ s.Exports m ∧
      ∀ (time : Number → Value) (r : PlanResult) (p : Plan), r.plan = .ok p → p.finalState = s →
        ∃ v, r.toValue time = .ok v ∧ v.field? "final_state" = some m) ∧
    (s.isWritable = false → s.toValue = .error .malformed ∧
      ∀ (time : Number → Value) (r : PlanResult) (p : Plan), r.plan = .ok p → p.finalState = s →
        r.toValue time = .error .malformed) ∧
    ((∀ e ∈ s.facts, e.1.Separable) → s.ToldApart → s.Unshared) ∧
    ∀ tuples defaults history, s.Reached tuples defaults history → s.ReadApart → s.ToldApart := by
  refine ⟨fun writable => ⟨_, toValue_eq titled writable, s.exports, ?_⟩,
    fun long => ⟨toValue_unwritable long, ?_⟩,
    fun separable apart => apart.unshared separable, fun _ _ _ reached read => ?_⟩
  · rintro time r p planned rfl
    rw [PlanResult.toValue, planned]
    dsimp only
    rw [toValue_eq titled writable]
    exact ⟨_, rfl, by simp [Value.field?, Value.lookup, Table.find?]⟩
  · rintro time r p planned rfl
    rw [PlanResult.toValue, planned]
    dsimp only
    rw [toValue_unwritable long]
    rfl
  · have leaves := reached.holds.leaves
    exact read.toldApart titled (FactKey.apart_of_once leaves.plain leaves.once)

end State

namespace Larder

/-- Shelves that are told apart are all exported. -/
theorem shelves_exported : ∃ (s : State) (m : Value),
    s.Reached false [] (recorded (stocked [.str "low", .int 2])) ∧
    s.facts.map (fun e => e.1.place) =
      [["predicate", "stock", "low"], ["predicate", "stock", "2"]] ∧
    s.toValue = .ok m ∧ (m.leaves 3).length = 2 ∧
    ∀ e ∈ s.facts, m.at? e.1.place = some e.2 := by
  have read : (shelves [.str "low", .int 2]).toOption.map (fun s =>
      (s.isWritable, decide (s.ReadApart ∧ ∀ e ∈ s.facts, e.1.Separable), s.size,
        s.facts.map fun e => e.1.place)) =
      some (true, true, 2, [["predicate", "stock", "low"], ["predicate", "stock", "2"]]) := by
    decide +kernel
  obtain ⟨s, hs, read⟩ := Option.map_eq_some_iff.mp read
  simp only [Prod.mk.injEq, decide_eq_true_eq] at read
  obtain ⟨writable, ⟨readApart, separable⟩, size, places⟩ := read
  have reached := shelves_reached _ (by decide) s (toOption_eq_some_iff.mp hs)
  have titled : ∀ e ∈ s.facts, e.1.Titled := fun e he =>
    (reached.holds.leaves.plain e he).titled
  obtain ⟨written, -, unshared, apart⟩ := State.exported_by_place s titled
  obtain ⟨m, hm, exports, -⟩ := written writable
  have unshared := unshared separable (apart _ _ _ reached readApart)
  exact ⟨s, m, reached, places, hm, (exports.complete.mpr unshared).trans size,
    exports.kept unshared⟩

/-! ### Shelves that are written over each other -/

def shared (names names' : List Value) : List (FactKey × Value) :=
  [({ category := defaultCategory, name := .str "stock", entities := names }, .int 3),
    ({ category := defaultCategory, name := .str "stock", entities := names' }, .int 5)]

/-- Two facts are stored, and only one of them is exported. -/
def Overwritten (names names' : List Value) : Prop := ∃ (s : State) (m : Value),
  s.Reached false [] (recorded (shared names names')) ∧ s.size = 2 ∧ s.toValue = .ok m ∧
  (m.leaves 3).length = 1 ∧ ∃ e ∈ s.facts, m.at? e.1.place ≠ some e.2

/-- How many facts are stored and exported, and whether one reads another number than it has. -/
def exported (names names' : List Value) : Option (Nat × Nat × Bool) := do
  let s ← (State.ofFacts false ((shared names names').map State.asFact) .null).toOption
  let m ← s.toValue.toOption
  return (s.size, (m.leaves 3).length,
    decide (∃ e ∈ s.facts, (m.at? e.1.place).bind Value.number? ≠ e.2.number?))

theorem overwritten_of_exported {names names' : List Value}
    (entities : ∀ v ∈ names ++ names', v.isEntity = true)
    (read : exported names names' = some (2, 1, true)) : Overwritten names names' := by
  obtain ⟨s, hs, read⟩ := Option.bind_eq_some_iff.mp read
  obtain ⟨m, hm, read⟩ := Option.bind_eq_some_iff.mp read
  simp only [Option.pure_def, Option.some.injEq, Prod.mk.injEq, decide_eq_true_eq] at read
  obtain ⟨size, leaves, e, he, other⟩ := read
  have plain : ∀ e ∈ shared names names', e.1.Plain := by
    simp only [shared, List.forall_mem_cons]
    exact ⟨⟨⟨_, rfl⟩, ⟨_, rfl⟩, fun v hv => entities v (List.mem_append_left _ hv)⟩,
      ⟨⟨_, rfl⟩, ⟨_, rfl⟩, fun v hv => entities v (List.mem_append_right _ hv)⟩, by rintro _ ⟨⟩⟩
  refine ⟨s, m, ?_, size, toOption_eq_some_iff.mp hm, leaves, e, he, fun same => ?_⟩
  · exact .loaded _ _ .null s (State.written_asFact _) plain rfl (toOption_eq_some_iff.mp hs)
  · exact other (by rw [same, Option.bind_some])

/-- The shelf 1 and the shelf "1" have one place, and so have a name with a comma and the names
on either side of it, and no name and an empty one. -/
theorem shelves_overwritten : Overwritten [.int 1] [.str "1"] ∧
    Overwritten [.str "left,right"] [.str "left", .str "right"] ∧
    Overwritten [] [.str ""] :=
  ⟨overwritten_of_exported (by decide) (by decide +kernel),
    overwritten_of_exported (by decide) (by decide +kernel),
    overwritten_of_exported (by decide) (by decide +kernel)⟩

end Larder

end Chronoplan
