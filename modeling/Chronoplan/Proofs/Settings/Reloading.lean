import Chronoplan.Proofs.Settings.Coverage

/-!
# Settings that are saved and loaded again

Loaded settings always cover the standard ones, since they are laid over them, and a write keeps it
so unless it puts a mapping that lacks a standard key in the place of a whole section. Settings that
cover the standard ones are found again when they are saved and loaded, and all others get what they
lack back. That reading undoes writing is taken for granted here: the mapping that is read is equal
to the one that was written, compared in either direction.
-/

set_option autoImplicit false

namespace Chronoplan

/-! ### Entries that stay -/

/-- Every key of the first table is one of the second. -/
def Grows {ν : Type} (t t' : Table Value ν) : Prop :=
  ∀ k, (Table.find? Value.alike k t).isSome = true → (Table.find? Value.alike k t').isSome = true

theorem grows_insert {ν : Type} (k : Value) (v : ν) (t : Table Value ν) :
    Grows t (Table.insert Value.alike k v t) := by
  intro j
  induction t with
  | nil => intro h; cases h
  | cons e t ih =>
    obtain ⟨k', w⟩ := e
    rw [Table.find?, Table.insert]
    split
    · next here => split <;> simp [Table.find?, here]
    · next other =>
      intro found
      split
      · simpa [Table.find?, other] using found
      · simpa [Table.find?, other] using ih found

namespace Value

/-- A value has become another one that is no mapping, or a mapping with all its keys. -/
def Grown (v w : Value) : Prop := ∀ t', w = .dict t' → ∃ t, v = .dict t ∧ Grows t t'

theorem Grown.refl (v : Value) : Grown v v := fun t' h => ⟨t', h, fun _ found => found⟩

theorem covers_of_grown {b v w : Value}
    (flat : ∀ t, b = .dict t → ∀ e ∈ t, e.2.isMapping = false) (grown : Grown v w)
    (covered : covers b v = true) : covers b w = true := by
  cases b with
  | dict base =>
    cases w with
    | dict t' =>
      obtain ⟨t, rfl, grows⟩ := grown t' rfl
      refine (coversAll_iff base t').mpr fun e he => ?_
      obtain ⟨x, found, -⟩ := (coversAll_iff base t).mp covered e he
      obtain ⟨y, found'⟩ := Option.isSome_iff_exists.mp (grows e.1 (Option.isSome_of_mem found))
      exact ⟨y, found', covers_over_leaf y (flat base rfl e he)⟩
    | _ => exact covers_of_leaf _ rfl
  | _ => exact covers_over_leaf w rfl

end Value

/-! ### Writes -/

namespace Settings

/-- What a write does to the entry at the first key of its path. -/
theorem put_cases {v : Linked} {name : String} {path : List String} {t t' : Linked.Entries}
    (h : put v (name :: path) t = .ok t') : ∃ x, t' = t.insert Value.alike (.str name) x ∧
      (path = [] ∧ x = v ∨ path ≠ [] ∧ ∀ y, lookup (.str name) t = some y →
        ∃ l inner inner', y = .dict l inner ∧ x = .dict l inner' ∧ put v path inner = .ok inner') := by
  cases path with
  | nil =>
    cases h
    exact ⟨v, rfl, .inl ⟨rfl, rfl⟩⟩
  | cons next path =>
    rw [put_cons] at h
    split at h
    · next missing =>
      obtain ⟨inner, -, rest⟩ := (bind_eq_ok_iff _ _ _).mp h
      cases rest
      exact ⟨_, rfl, .inr ⟨List.cons_ne_nil next path, fun y found => by
        cases missing.symm.trans found⟩⟩
    · next l inner there =>
      obtain ⟨inner', hinner, rest⟩ := (bind_eq_ok_iff _ _ _).mp h
      cases rest
      refine ⟨_, rfl, .inr ⟨List.cons_ne_nil next path, fun y found => ?_⟩⟩
      cases there.symm.trans found
      exact ⟨l, inner, inner', rfl, rfl, hinner⟩
    · cases h

theorem grows_put {v : Linked} {path : List String} {t t' : Linked.Entries}
    (h : put v path t = .ok t') : Grows t t' := by
  cases path with
  | nil => cases h; exact fun _ found => found
  | cons name path =>
    obtain ⟨x, rfl, -⟩ := put_cases h
    exact grows_insert _ x t

end Settings

namespace Linked

theorem grown_dict {t t' : Entries} (grows : Grows t t') (l l' : Nat) :
    Value.Grown (toValue (.dict l t)) (toValue (.dict l' t')) := by
  intro kvs shape
  cases shape
  refine ⟨toEntries t, rfl, fun k found => ?_⟩
  have through : ∀ t : Entries, (Table.find? Value.alike k (toEntries t)).isSome =
      (Table.find? Value.alike k t).isSome := fun t => by
    rw [← Value.lookup, lookup_toEntries, Option.isSome_map, Settings.lookup]
  rw [through] at found ⊢
  exact grows k found

section

variable {link : Nat} {change : Entries → Except Fault Entries}

theorem lookup_alterEntries {t t' : Entries} (h : alterEntries link change t = .ok t') {k : Value}
    {x : Linked} (found : Settings.lookup k t = some x) :
    ∃ x', Settings.lookup k t' = some x' ∧ alter link change x = .ok x' := by
  induction t generalizing t' with
  | nil => cases found
  | cons e t ih =>
    obtain ⟨k', y⟩ := e
    obtain ⟨y', hy, rest⟩ := (bind_eq_ok_iff _ _ _).mp h
    obtain ⟨more, hmore, last⟩ := (bind_eq_ok_iff _ _ _).mp rest
    cases last
    rw [Settings.lookup, Table.find?] at found ⊢
    split at found
    · next here => cases found; exact ⟨y', if_pos here, hy⟩
    · next other => rw [if_neg other]; exact ih hmore found

variable (grows : ∀ t t', change t = .ok t' → Grows t t')
include grows

/-- A change inside a value leaves its kind, and its keys when it is a mapping. -/
theorem grown_alter : (x x' : Linked) → alter link change x = .ok x' →
    Value.Grown x.toValue x'.toValue
  | .dict l t, x', h => by
    rw [alter] at h
    split at h
    · obtain ⟨t', ht', rest⟩ := (bind_eq_ok_iff _ _ _).mp h
      cases rest
      exact grown_dict (grows t t' ht') l l
    · obtain ⟨t', ht', rest⟩ := (bind_eq_ok_iff _ _ _).mp h
      cases rest
      refine grown_dict (fun k found => ?_) l l
      obtain ⟨x, hx⟩ := Option.isSome_iff_exists.mp found
      obtain ⟨x', hx', -⟩ := lookup_alterEntries ht' hx
      exact Option.isSome_of_mem hx'
  | .keyed l v, x', h => by
    obtain ⟨v', hv', rest⟩ := (bind_eq_ok_iff _ _ _).mp h
    cases rest
    exact grown_alter v v' hv'
  | .list l xs, x', h => by
    obtain ⟨xs', -, rest⟩ := (bind_eq_ok_iff _ _ _).mp h
    cases rest
    exact fun t' shape => by cases shape
  | .tuple xs, x', h => by
    obtain ⟨xs', -, rest⟩ := (bind_eq_ok_iff _ _ _).mp h
    cases rest
    exact fun t' shape => by cases shape
  | .leaf l v, x', h => by cases h; exact .refl _
  | .set l xs, x', h => by cases h; exact .refl _
  | .again l mapping, x', h => by cases h; exact .refl _

end

end Linked

namespace Settings

/-! ### The standard settings -/

/-- The standard settings are mappings of leaves under texts. -/
theorem standard_sections : ∀ e ∈ standard.entries, ∃ name fields, e = (.str name, mapping fields) ∧
    ∀ e' ∈ fields, e'.2.isMapping = false := by
  intro e he
  simp only [standard, List.mem_cons, List.not_mem_nil, or_false] at he
  rcases he with rfl | rfl | rfl <;> exact ⟨_, _, rfl, by decide⟩

theorem standard_indexed : Indexed standard.entries where
  findable := by decide
  once := by decide +kernel

theorem standard_document : standard.toValue.isDocument = true := by decide

theorem standard_tree : standard.toValue.isTree = true := by decide +kernel

/-- Every standard key is there, in every standard section that is a mapping. -/
def Whole (s : Settings) : Prop := standard.toValue.covers s.toValue = true

instance (s : Settings) : Decidable s.Whole :=
  inferInstanceAs (Decidable (standard.toValue.covers s.toValue = true))

theorem whole_iff (s : Settings) : s.Whole ↔ ∀ e ∈ standard.entries,
    ∃ x, lookup e.1 s.entries = some x ∧ e.2.toValue.covers x.toValue = true := by
  rw [Whole, toValue, toValue, Value.covers, Value.coversAll_iff, Linked.toEntries_eq_map,
    List.forall_mem_map]
  refine forall₂_congr fun e _ => ?_
  rw [Linked.lookup_toEntries]
  cases lookup e.1 s.entries <;> simp

theorem flat_section {e : Value × Linked} (he : e ∈ standard.entries) (t : Table Value Value)
    (shape : e.2.toValue = .dict t) : ∀ e' ∈ t, e'.2.isMapping = false := by
  obtain ⟨name, entries, rfl, leaves⟩ := standard_sections e he
  cases shape
  rw [Linked.toEntries_eq_map, List.map_map]
  exact List.forall_mem_map.mpr leaves

/-! ### Loading -/

/-- Under texts, mappings stand for themselves. -/
def Shown (t : Linked.Entries) : Prop := ∀ e ∈ t, ∀ name, e.1 = .str name →
  e.2.toValue.isMapping = true → ∃ l inner, e.2 = .dict l inner

/-- The test for this. -/
def showsAll (t : Linked.Entries) : Bool :=
  t.all fun e =>
    match e with
    | (.str _, .dict _ _) => true
    | (.str _, v) => !v.toValue.isMapping
    | _ => true

theorem showsAll_iff (t : Linked.Entries) : showsAll t = true ↔ Shown t := by
  rw [showsAll, List.all_eq_true]
  refine forall₂_congr fun e _ => ?_
  obtain ⟨k, v⟩ := e
  cases k with
  | str name => cases v <;> simp
  | _ => simp

theorem Shown.cases {t : Linked.Entries} (shown : Shown t) {name : String} {x : Linked}
    (found : lookup (.str name) t = some x) :
    (∃ l inner, x = .dict l inner) ∨
      (∀ l inner, x ≠ .dict l inner) ∧ x.toValue.isMapping = false := by
  obtain ⟨⟨k, x⟩, hmem, key, rfl⟩ := exists_of_find? found
  have text := (Value.alike_str_iff k name).mp key
  by_cases mapping : ∃ l inner, x = .dict l inner
  · exact .inl mapping
  · refine .inr ⟨fun l inner same => mapping ⟨l, inner, same⟩, ?_⟩
    exact Bool.eq_false_iff.mpr fun hidden => mapping (shown _ hmem name text hidden)

theorem lookup_mergeEntries (name : String) (base upper : Linked.Entries) :
    lookup (.str name) (mergeEntries base upper) =
      (lookup (.str name) base).map fun b => match lookup (.str name) upper with
        | some v => mergeValue b v
        | none => b := by
  induction base with
  | nil => rfl
  | cons e base ih =>
    obtain ⟨k, b⟩ := e
    simp only [lookup, mergeEntries, Table.find?] at ih ⊢
    split
    · next same => rw [(Value.alike_str_iff k name).mp same]; rfl
    · exact ih

/-- What the joined mapping has under a text of the lower one. -/
theorem lookup_merge {name : String} {base : Linked.Entries} {b : Linked}
    (usual : lookup (.str name) base = some b) (upper : Linked.Entries) :
    lookup (.str name) (merge base upper) = some (match lookup (.str name) upper with
      | some v => mergeValue b v
      | none => b) := by
  rw [lookup, merge, find?_append, ← lookup, lookup_mergeEntries, usual, Option.map_some,
    Option.some_or]

/-- The joined mapping has all texts of the lower one. -/
theorem isSome_lookup_merge {name : String} {base : Linked.Entries} (upper : Linked.Entries)
    (found : (lookup (.str name) base).isSome = true) :
    (lookup (.str name) (merge base upper)).isSome = true := by
  obtain ⟨b, usual⟩ := Option.isSome_iff_exists.mp found
  rw [lookup_merge usual]
  rfl

theorem covers_mapping {fields : List (String × Value)} {l : Nat} {t : Linked.Entries}
    (leaves : ∀ e ∈ fields, e.2.isMapping = false)
    (found : ∀ e ∈ fields, (lookup (.str e.1) t).isSome = true) :
    (mapping fields).toValue.covers (Linked.toValue (.dict l t)) = true := by
  rw [mapping, Linked.toValue, Linked.toValue, Value.covers, Value.coversAll_iff,
    Linked.toEntries_eq_map, List.map_map, List.forall_mem_map]
  intro e he
  obtain ⟨x, hx⟩ := Option.isSome_iff_exists.mp (found e he)
  exact ⟨x.toValue, by rw [Function.comp_apply, Linked.lookup_toEntries, hx]; rfl,
    Value.covers_over_leaf _ (leaves e he)⟩

/-- Settings that are laid over the standard ones cover them. -/
theorem whole_merge {upper : Linked.Entries} (shown : Shown upper) :
    Whole ⟨merge standard.entries upper⟩ := by
  refine (whole_iff _).mpr fun e he => ?_
  have usual : lookup e.1 standard.entries = some e.2 := standard_indexed.find?_of_mem he
  obtain ⟨name, fields, rfl, leaves⟩ := standard_sections e he
  have own : ∀ e ∈ fields, (lookup (.str e.1)
      (fields.map fun e => (.str e.1, .leaf 0 e.2))).isSome = true := fun e he =>
    (find?_isSome_iff _ _ _).mpr ⟨_, List.mem_map_of_mem he, by simp⟩
  refine ⟨_, lookup_merge usual upper, ?_⟩
  cases found : lookup (.str name) upper with
  | none => exact covers_mapping leaves own
  | some y =>
    obtain ⟨l, inner, rfl⟩ | ⟨other, single⟩ := shown.cases found
    · exact covers_mapping leaves fun e he => isSome_lookup_merge _ (own e he)
    · simp only [Linked.mergeValue_of_leaf _ other]
      exact Value.covers_of_leaf _ single

/-! ### Runs -/

/-- A write keeps a standard section whole when it puts no mapping in its place that lacks one of
its keys. -/
def Careful (w : String × Value) : Prop :=
  ∀ b, standard.toValue.at? (splitText '.' w.1) = some b → b.covers w.2 = true

/-- The settings that loads and writes lead to, with the writes since the last load. -/
inductive Reached : List (String × Value) → Settings → Prop
  | standard : Reached [] standard
  | loaded {upper : Linked.Entries} (shown : Shown upper) :
    Reached [] ⟨merge standard.entries upper⟩
  | written {writes : List (String × Value)} {s s' : Settings} {path : String} {v : Value}
    (before : Reached writes s) (write : s.set path v = .ok s') :
    Reached (writes ++ [(path, v)]) s'

theorem whole_put {v : Value} {path : List String} (longer : path ≠ []) {t t' : Linked.Entries}
    (h : put (.ofValue v) path t = .ok t')
    (careful : ∀ b, standard.toValue.at? path = some b → b.covers v = true)
    (whole : Whole ⟨t⟩) : Whole ⟨t'⟩ := by
  obtain ⟨name', rest, rfl⟩ := List.exists_cons_of_ne_nil longer
  obtain ⟨x, rfl, written⟩ := put_cases h
  refine (whole_iff _).mpr fun e he => ?_
  obtain ⟨y, found, covered⟩ := (whole_iff _).mp whole e he
  have flat := flat_section he
  have usual : lookup e.1 standard.entries = some e.2 := standard_indexed.find?_of_mem he
  obtain ⟨name, fields, rfl, -⟩ := standard_sections e he
  rw [lookup, Value.find?_insert_str]
  by_cases same : name' = name
  · subst same
    refine ⟨x, if_pos rfl, ?_⟩
    obtain ⟨rfl, rfl⟩ | ⟨-, inside⟩ := written
    · -- The section itself is replaced.
      rw [Linked.toValue_ofValue]
      refine careful _ ?_
      have there := Linked.lookup_toEntries (.str name') standard.entries
      rw [usual] at there
      rw [Value.at?, toValue, Value.field?, there]
      rfl
    · obtain ⟨l, inner, inner', rfl, rfl, deeper⟩ := inside y found
      exact Value.covers_of_grown flat (Linked.grown_dict (grows_put deeper) l l) covered
  · exact ⟨y, (if_neg same).trans found, covered⟩

theorem whole_set {s s' : Settings} {path : String} {v : Value} (h : s.set path v = .ok s')
    (careful : Careful (path, v)) (whole : s.Whole) : s'.Whole := by
  simp only [set] at h
  split at h
  · obtain ⟨t', ht', rest⟩ := (bind_eq_ok_iff _ _ _).mp h
    cases rest
    refine (whole_iff _).mpr fun e he => ?_
    obtain ⟨y, found, covered⟩ := (whole_iff _).mp whole e he
    obtain ⟨y', found', altered⟩ := Linked.lookup_alterEntries ht' found
    have grown := Linked.grown_alter (fun t t' => grows_put) y y' altered
    exact ⟨y', found', Value.covers_of_grown (flat_section he) grown covered⟩
  · obtain ⟨t', ht', rest⟩ := (bind_eq_ok_iff _ _ _).mp h
    cases rest
    exact whole_put (splitText_ne_nil '.' path) ht' careful whole

theorem Reached.whole {writes : List (String × Value)} {s : Settings} (h : Reached writes s)
    (careful : ∀ w ∈ writes, Careful w) : s.Whole := by
  induction h with
  | standard => decide +kernel
  | loaded shown => exact whole_merge shown
  | written before write ih =>
    obtain ⟨earlier, last⟩ := List.forall_mem_append.mp careful
    exact whole_set write (last _ List.mem_cons_self) (ih earlier)

/-! ### Saving and loading again -/

/-- What a file can hold: a tree, in which nothing is met again inside itself and mappings under
texts stand for themselves. -/
structure Legible (u : Linked.Entries) : Prop where
  finite : Linked.holdFinite u = true
  tree : (Value.dict (Linked.toEntries u)).isTree = true
  shown : Shown u

instance (u : Linked.Entries) : Decidable (Legible u) :=
  decidable_of_iff (Linked.holdFinite u = true ∧
    (Value.dict (Linked.toEntries u)).isTree = true ∧ showsAll u = true)
    ⟨fun h => ⟨h.1, h.2.1, (showsAll_iff u).mp h.2.2⟩,
      fun h => ⟨h.finite, h.tree, (showsAll_iff u).mpr h.shown⟩⟩

theorem fitsAll_leaves (fields : List (String × Value)) (upper : Linked.Entries)
    (leaves : ∀ e ∈ fields, e.2.isMapping = false) :
    Linked.fitsAll (fields.map fun e => (.str e.1, .leaf 0 e.2)) upper = true := by
  induction fields with
  | nil => rfl
  | cons e fields ih =>
    obtain ⟨here, later⟩ := List.forall_mem_cons.mp leaves
    rw [List.map_cons, Linked.fitsAll, ih later, Bool.and_true]
    cases lookup (.str e.1) upper with
    | none => rfl
    | some v => simp [Linked.fits, Linked.toValue, here]

theorem fitsAll_standard {upper : Linked.Entries} (shown : Shown upper) :
    Linked.fitsAll standard.entries upper = true := by
  have each : ∀ base : Linked.Entries, (∀ e ∈ base, ∃ name fields, e = (.str name, mapping fields) ∧
      ∀ e' ∈ fields, e'.2.isMapping = false) → Linked.fitsAll base upper = true := by
    intro base sections
    induction base with
    | nil => rfl
    | cons e base ih =>
      obtain ⟨here, later⟩ := List.forall_mem_cons.mp sections
      obtain ⟨name, fields, rfl, leaves⟩ := here
      rw [Linked.fitsAll, ih later, Bool.and_true]
      cases found : lookup (.str name) upper with
      | none => rfl
      | some y =>
        obtain ⟨l, inner, rfl⟩ | ⟨other, single⟩ := shown.cases found
        · exact fitsAll_leaves fields inner leaves
        · cases y with
          | dict l inner => exact absurd rfl (other l inner)
          | _ => simpa [mapping, Linked.fits] using single
  exact each standard.entries standard_sections

theorem toValue_merge {u : Linked.Entries} (legible : Legible u) :
    toValue ⟨merge standard.entries u⟩ =
      standard.toValue.overlay (.dict (Linked.toEntries u)) :=
  Linked.dict_merge (fitsAll_standard legible.shown) legible.finite

theorem alike_eq_eq (t t' : Table Value Value) :
    (Value.dict t).alike (.dict t') = (Value.dict t).eq (.dict t') := by
  simp [Value.alike, Value.sameNaN]

/-- What settings are read as from the file that they are saved in. -/
def reread (path : String) (s : Settings) : Except Fault Linked.Entries := do
  overrides path (← s.fileText)

/-- Saves settings and loads the file. -/
def reload (path : String) (s : Settings) : Except Fault Settings := do
  ofFile path (some (← s.fileText))

/-- Settings are saved unless they hold an integer of too many digits. -/
theorem exists_fileText_iff (s : Settings) :
    (∃ text, s.fileText = .ok text) ↔ s.toValue.isWritable = true := by
  have entries : Linked.toValue (.dict 0 s.entries) = s.toValue := rfl
  rw [fileText, Yaml.writeMapping, entries]
  cases s.toValue.isWritable <;> simp

/-- Settings that loads and writes lead to are found again when they are saved and loaded, exactly
when they cover the standard ones; and they do when every write is careful. -/
theorem saved_and_loaded (writes : List (String × Value)) (s : Settings)
    (reached : Reached writes s) (path : String) (u : Linked.Entries)
    (read : s.reread path = .ok u) (legible : Legible u)
    (undone : s.toValue.eq (.dict (Linked.toEntries u)) = true ∧
      (Value.dict (Linked.toEntries u)).eq s.toValue = true) :
    ∃ r, s.reload path = .ok r ∧
      (s.toValue.eq r.toValue = true ↔ s.Whole) ∧
      ((∀ w ∈ writes, Careful w) → s.toValue.eq r.toValue = true) := by
  obtain ⟨h, h'⟩ := undone
  rw [toValue, ← alike_eq_eq] at h h'
  have again : s.toValue.eq (toValue ⟨merge standard.entries u⟩) = true ↔ s.Whole := by
    have same : s.toValue.eq (toValue ⟨merge standard.entries u⟩) =
        s.toValue.alike (toValue ⟨merge standard.entries u⟩) := (alike_eq_eq _ _).symm
    rw [same, toValue_merge legible]
    constructor
    · intro joined
      have covered := Value.covers_of_alike_overlay standard_document standard_tree legible.tree h h'
        joined
      exact Value.covers_congr standard_document h' h covered
    · intro whole
      have covered := Value.covers_congr standard_document h h' whole
      exact Value.alike_overlay standard_document standard_tree legible.tree h covered
  refine ⟨⟨merge standard.entries u⟩, ?_, again, fun careful => again.mpr (reached.whole careful)⟩
  obtain ⟨text, saved, read⟩ := (bind_eq_ok_iff _ _ _).mp read
  simp [reload, saved, ofFile, load, orFault, read]

end Settings

namespace Attic

/-! ### Settings in the attic -/

/-- What two sections are left at in a file that only says at what level to log. -/
def file : Linked.Entries :=
  [(.str "planner", .leaf 0 .null), (.str "stn", .leaf 0 .null),
    (.str "logging", .dict 0 [(.str "level", .leaf 0 (.int 1))])]

def laid : Settings := ⟨Settings.merge Settings.standard.entries file⟩

theorem laid_reached : Settings.Reached [] laid :=
  .loaded ((Settings.showsAll_iff file).mp (by decide))

/-- A section that is emptied is filled with the standard keys when the settings are loaded again. -/
theorem emptied_section_refilled : ∃ s u r, Settings.Reached [("planner", .dict [])] s ∧
    s.reread "saved.yaml" = .ok u ∧
    s.toValue.eq (.dict (Linked.toEntries u)) = true ∧
    (Value.dict (Linked.toEntries u)).eq s.toValue = true ∧
    s.reload "saved.yaml" = .ok r ∧ s.toValue.eq r.toValue = false := by
  have run : ((laid.set "planner" (.dict [])).toOption.bind fun s =>
      (s.reread "saved.yaml").toOption.bind fun u =>
        (s.reload "saved.yaml").toOption.map fun r =>
          (s.toValue.eq (.dict (Linked.toEntries u)),
            (Value.dict (Linked.toEntries u)).eq s.toValue, s.toValue.eq r.toValue)) =
      some (true, true, false) := by decide +kernel
  obtain ⟨s, hs, run⟩ := Option.bind_eq_some_iff.mp run
  obtain ⟨u, hu, run⟩ := Option.bind_eq_some_iff.mp run
  obtain ⟨r, hr, run⟩ := Option.map_eq_some_iff.mp run
  obtain ⟨undone, run⟩ := Prod.mk.inj run
  obtain ⟨undone', differs⟩ := Prod.mk.inj run
  exact ⟨s, u, r, laid_reached.written (toOption_eq_some_iff.mp hs), toOption_eq_some_iff.mp hu,
    undone, undone', toOption_eq_some_iff.mp hr, differs⟩

/-- Another level is found again. -/
theorem level_kept : ∃ s u r, Settings.Reached [("logging.level", .int 2)] s ∧
    s.reread "saved.yaml" = .ok u ∧
    s.reload "saved.yaml" = .ok r ∧ s.toValue.eq r.toValue = true := by
  have run : ((laid.set "logging.level" (.int 2)).toOption.bind fun s =>
      (s.reread "saved.yaml").toOption.map fun u =>
        decide (Settings.Legible u ∧ s.toValue.eq (.dict (Linked.toEntries u)) = true ∧
          (Value.dict (Linked.toEntries u)).eq s.toValue = true)) = some true := by decide +kernel
  obtain ⟨s, hs, run⟩ := Option.bind_eq_some_iff.mp run
  obtain ⟨u, hu, run⟩ := Option.map_eq_some_iff.mp run
  obtain ⟨legible, undone⟩ := of_decide_eq_true run
  have reached := laid_reached.written (toOption_eq_some_iff.mp hs)
  have read := toOption_eq_some_iff.mp hu
  obtain ⟨r, hr, -, found⟩ :=
    Settings.saved_and_loaded _ s reached "saved.yaml" u read legible undone
  refine ⟨s, u, r, reached, read, hr, found ?_⟩
  intro w hw b _
  cases List.mem_singleton.mp hw
  exact Value.covers_of_leaf b rfl

end Attic

end Chronoplan
