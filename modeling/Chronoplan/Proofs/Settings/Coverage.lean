import Chronoplan.Proofs.Settings.Paths

/-!
# What a value covers

A value covers a lower one when it has an entry for each of its keys, as far down as both have
mappings. A value that is laid over the lower one then adds nothing to itself: the joined value is
equal to it. Otherwise the joined value has an entry more somewhere, and it is not.
-/

set_option autoImplicit false

namespace Chronoplan

namespace Value

/-! ### Equality of mappings -/

theorem isMapping_of_alike {v w : Value} (h : v.alike w = true) : v.isMapping = w.isMapping := by
  cases v <;> cases w <;> simp_all [alike, eq, sameNaN, isMapping]

/-- Values under the same text are alike in equal mappings. -/
theorem lookup_alike {s u : Table Value Value} (h : (Value.dict s).alike (.dict u) = true)
    (h' : (Value.dict u).alike (.dict s) = true) (name : String) :
    Option.Rel (fun v w => v.alike w = true ∧ w.alike v = true) (lookup (.str name) s)
      (lookup (.str name) u) := by
  -- What is found is an entry under the text itself, which has its like in the other mapping.
  have across : ∀ {s u : Table Value Value}, (Value.dict s).alike (.dict u) = true → ∀ v,
      lookup (.str name) s = some v → ∃ w, lookup (.str name) u = some w ∧ v.alike w = true := by
    intro s u h v found
    obtain ⟨⟨k, v⟩, he, key, rfl⟩ := exists_of_find? found
    have there := ((dict_alike_iff s u).mp h).2 _ he
    rw [(alike_str_iff k name).mp key, entryIn_str_iff] at there
    exact there
  cases found : lookup (.str name) s with
  | some v =>
    obtain ⟨w, found', like⟩ := across h v found
    obtain ⟨v', again, like'⟩ := across h' w found'
    cases found.symm.trans again
    exact found' ▸ .some ⟨like, like'⟩
  | none =>
    cases found' : lookup (.str name) u with
    | none => exact .none
    | some w =>
      obtain ⟨v, there, -⟩ := across h' w found'
      cases found.symm.trans there

/-! ### Covering -/

mutual

/-- Whether a value has an entry for each key of a lower one, as far down as both have mappings. -/
def covers : Value → Value → Bool
  | .dict base, .dict upper => coversAll base upper
  | _, _ => true

def coversAll : Table Value Value → Table Value Value → Bool
  | [], _ => true
  | (k, b) :: r, upper =>
    (match lookup k upper with
      | some v => covers b v
      | none => false) && coversAll r upper

end

theorem coversAll_iff (base upper : Table Value Value) : coversAll base upper = true ↔
    ∀ e ∈ base, ∃ v, lookup e.1 upper = some v ∧ covers e.2 v = true := by
  induction base with
  | nil => simp [coversAll]
  | cons e base ih =>
    rw [coversAll, Bool.and_eq_true, ih, List.forall_mem_cons]
    cases lookup e.1 upper <;> simp

theorem covers_of_leaf (b : Value) {v : Value} (h : v.isMapping = false) : covers b v = true := by
  cases v with
  | dict _ => cases h
  | _ => cases b <;> rfl

theorem covers_over_leaf {b : Value} (v : Value) (h : b.isMapping = false) : covers b v = true := by
  cases b with
  | dict _ => cases h
  | _ => cases v <;> rfl

/-- Equal values cover the same. -/
theorem covers_congr {b : Value} (document : b.isDocument = true) {v w : Value}
    (h : v.alike w = true) (h' : w.alike v = true) (covered : covers b v = true) :
    covers b w = true := by
  induction b using mappingInduction generalizing v w with
  | leaf b single => exact covers_over_leaf w single
  | dict base ih =>
    cases w with
    | dict upper =>
      cases v with
      | dict s =>
        refine (coversAll_iff base upper).mpr fun e he => ?_
        obtain ⟨x, found, inner⟩ := (coversAll_iff base s).mp covered e he
        obtain ⟨⟨name, key⟩, below⟩ := (holdDocuments_iff base).mp document e he
        have pair := lookup_alike h h' name
        rw [key] at found ⊢
        rw [found] at pair
        cases found' : lookup (.str name) upper with
        | none => rw [found'] at pair; cases pair
        | some y =>
          rw [found'] at pair
          cases pair with
          | some both => exact ⟨y, rfl, ih e he below both.1 both.2 inner⟩
      | _ => cases isMapping_of_alike h
    | _ => exact covers_of_leaf _ rfl

/-! ### Laying over what is covered -/

/-- In a table of texts only texts are found. -/
theorem lookup_isSome_iff {t : Table Value Value} (texts : ∀ e ∈ t, e.1.IsText) (k : Value) :
    (lookup k t).isSome = true ↔ k ∈ Table.keys t := by
  rw [lookup, find?_isSome_iff, Table.keys, List.mem_map]
  constructor
  · rintro ⟨e, he, same⟩
    obtain ⟨name, key⟩ := texts e he
    rw [key, str_alike_iff] at same
    exact ⟨e, he, key.trans same.symm⟩
  · rintro ⟨e, he, rfl⟩
    obtain ⟨name, key⟩ := texts e he
    exact ⟨e, he, by rw [key, str_alike_iff]⟩

theorem keys_nodup {t : Table Value Value} (h : Indexed t) : (Table.keys t).Nodup := by
  refine List.pairwise_map.mpr (h.once.imp_of_mem fun {e e'} he _ apart same => ?_)
  rw [← same, alike_self (h.findable e he)] at apart
  cases apart

/-- Nothing is added to a value that has an entry for each key of the lower one. -/
theorem length_overlay {base upper : Table Value Value} (texts : ∀ e ∈ base, e.1.IsText)
    (hb : Indexed base) (hu : Indexed upper) :
    (overlayEntries base upper ++ lacking base upper).length = upper.length ↔
      ∀ e ∈ base, (lookup e.1 upper).isSome = true := by
  -- The keys in both, read off either side.
  have shared : (Table.keys (upper.filter fun e => (lookup e.1 base).isSome)).Perm
      (Table.keys (base.filter fun e => (lookup e.1 upper).isSome)) := by
    refine (List.perm_ext_iff_of_nodup ?_ ?_).mpr fun k => ?_
    · exact (keys_nodup hu).sublist (List.filter_sublist.map _)
    · exact (keys_nodup hb).sublist (List.filter_sublist.map _)
    · simp only [Table.keys, List.mem_map, List.mem_filter]
      constructor
      · rintro ⟨e, ⟨he, there⟩, rfl⟩
        obtain ⟨e', he', key⟩ := List.mem_map.mp ((lookup_isSome_iff texts e.1).mp there)
        refine ⟨e', ⟨he', ?_⟩, key⟩
        rw [key, lookup, hu.find?_of_mem he]
        rfl
      · rintro ⟨e, ⟨he, there⟩, rfl⟩
        obtain ⟨name, key⟩ := texts e he
        obtain ⟨e', he', same⟩ := (find?_isSome_iff alike e.1 upper).mp there
        rw [key, alike_str_iff] at same
        refine ⟨e', ⟨he', ?_⟩, same.trans key.symm⟩
        rw [same, ← key, lookup, hb.find?_of_mem he]
        rfl
  have count := shared.length_eq
  simp only [Table.keys, List.length_map] at count
  have upper_parts := upper.length_eq_length_filter_add fun e => (lookup e.1 base).isSome
  have base_parts := base.length_eq_length_filter_add fun e => (lookup e.1 upper).isSome
  have joined : (overlayEntries base upper).length = base.length := by
    rw [overlayEntries_eq_map, List.length_map]
  have rest : (lacking base upper).length =
      (upper.filter fun e => !(lookup e.1 base).isSome).length := by
    simp only [lacking, Option.not_isSome]
  have all : (∀ e ∈ base, (lookup e.1 upper).isSome = true) ↔
      (base.filter fun e => !(lookup e.1 upper).isSome).length = 0 := by
    simp [List.filter_eq_nil_iff, Option.isSome_iff_ne_none]
  rw [all, List.length_append]
  omega

/-- An entry whose key the lower mapping lacks is in the joined mapping when it is in the upper
one. -/
theorem entryIn_overlay {base upper : Table Value Value} (texts : ∀ e ∈ base, e.1.IsText)
    (k v : Value) (fresh : k ∉ Table.keys base) :
    entryIn k v (overlayEntries base upper ++ lacking base upper) = entryIn k v upper := by
  have apart : ∀ e ∈ base, k.alike e.1 = false := by
    intro e he
    obtain ⟨name, key⟩ := texts e he
    rw [Bool.eq_false_iff, key, Ne, alike_str_iff]
    rintro rfl
    exact fresh (key ▸ List.mem_map_of_mem he)
  have kept : ∀ e ∈ upper, k.alike e.1 = true → (lookup e.1 base).isNone = true := by
    intro e he same
    rw [← Option.not_isSome, Bool.not_eq_true', Bool.eq_false_iff, Ne, lookup_isSome_iff texts]
    intro there
    obtain ⟨e', he', key⟩ := List.mem_map.mp there
    rw [← key, apart e' he'] at same
    cases same
  have joined : ∀ e ∈ overlayEntries base upper, k.alike e.1 = false := by
    intro e he
    rw [overlayEntries_eq_map] at he
    obtain ⟨e', he', rfl⟩ := List.mem_map.mp he
    exact apart e' he'
  rw [entryIn_eq, entryIn_eq, find?_append, find?_eq_none _ k _ joined, Option.none_or, lacking,
    find?_filter _ k upper _ kept]

/-- A value that is laid over one that it covers is equal to the joined value. -/
theorem alike_overlay {b : Value} (document : b.isDocument = true) (hb : b.isTree = true)
    {v w : Value} (hw : w.isTree = true) (h : v.alike w = true) (covered : covers b w = true) :
    v.alike (overlay b w) = true := by
  induction b using mappingInduction generalizing v w with
  | leaf b single => rwa [overlay_over_leaf w single]
  | dict base ih =>
    cases w with
    | dict upper =>
      cases v with
      | dict s =>
        obtain ⟨base_indexed, base_below⟩ := (isTree_dict_iff base).mp hb
        obtain ⟨upper_indexed, upper_below⟩ := (isTree_dict_iff upper).mp hw
        have entries := (holdDocuments_iff base).mp document
        have texts : ∀ e ∈ base, e.1.IsText := fun e he => (entries e he).1
        have each := (coversAll_iff base upper).mp covered
        obtain ⟨length, within⟩ := (dict_alike_iff s upper).mp h
        refine (dict_alike_iff s _).mpr ⟨?_, fun e he => ?_⟩
        · rw [length, eq_comm, length_overlay texts base_indexed upper_indexed]
          intro e he
          obtain ⟨x, found, -⟩ := each e he
          rw [found]
          rfl
        · by_cases usual : e.1 ∈ Table.keys base
          · obtain ⟨e', he', key⟩ := List.mem_map.mp usual
            obtain ⟨⟨name, text⟩, below⟩ := entries e' he'
            obtain ⟨x, found, inner⟩ := each e' he'
            have there := within e he
            rw [← key, text, entryIn_str_iff] at there ⊢
            obtain ⟨y, found', like⟩ := there
            rw [text] at found
            cases found.symm.trans found'
            obtain ⟨entry, hentry, -, rfl⟩ := exists_of_find? found
            refine ⟨overlay e'.2 entry.2, ?_,
              ih e' he' below (base_below e' he') (upper_below entry hentry) like inner⟩
            rw [lookup_overlay base_indexed upper_indexed rfl, found, ← text, lookup,
              base_indexed.find?_of_mem he']
          · rw [entryIn_overlay texts _ _ usual]
            exact within e he
      | _ => cases isMapping_of_alike h
    | _ => rwa [overlay_of_leaf _ rfl]

/-- A value that is equal to the joined value covers the lower one. -/
theorem covers_of_alike_overlay {b : Value} (document : b.isDocument = true)
    (hb : b.isTree = true) {v w : Value} (hw : w.isTree = true) (h : v.alike w = true)
    (h' : w.alike v = true) (joined : v.alike (overlay b w) = true) : covers b w = true := by
  induction b using mappingInduction generalizing v w with
  | leaf b single => exact covers_over_leaf w single
  | dict base ih =>
    cases w with
    | dict upper =>
      cases v with
      | dict s =>
        obtain ⟨base_indexed, base_below⟩ := (isTree_dict_iff base).mp hb
        obtain ⟨upper_indexed, upper_below⟩ := (isTree_dict_iff upper).mp hw
        have entries := (holdDocuments_iff base).mp document
        have texts : ∀ e ∈ base, e.1.IsText := fun e he => (entries e he).1
        obtain ⟨length, -⟩ := (dict_alike_iff s upper).mp h
        obtain ⟨longer, within⟩ := (dict_alike_iff s _).mp joined
        have each := (length_overlay texts base_indexed upper_indexed).mp (longer.symm.trans length)
        refine (coversAll_iff base upper).mpr fun e he => ?_
        obtain ⟨⟨name, key⟩, below⟩ := entries e he
        obtain ⟨y, found⟩ := Option.isSome_iff_exists.mp (each e he)
        obtain ⟨entry, hentry, -, rfl⟩ := exists_of_find? found
        have pair := lookup_alike h h' name
        rw [← key, found] at pair
        cases there : lookup e.1 s with
        | none => rw [there] at pair; cases pair
        | some x =>
          rw [there] at pair
          cases pair with
          | some both =>
            -- The value stands in the joined mapping under its text, where the two are joined.
            obtain ⟨entry', hentry', same, rfl⟩ := exists_of_find? there
            have like := within entry' hentry'
            rw [key, alike_str_iff] at same
            rw [same, entryIn_str_iff, lookup_overlay base_indexed upper_indexed rfl, ← key, found,
              lookup, base_indexed.find?_of_mem he] at like
            obtain ⟨z, here, like⟩ := like
            cases here
            exact ⟨entry.2, found, ih e he below (base_below e he) (upper_below entry hentry)
              both.1 both.2 like⟩
      | _ => cases isMapping_of_alike h
    | _ => exact covers_of_leaf _ rfl

end Value

end Chronoplan
