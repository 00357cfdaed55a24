import Chronoplan.Settings.Tree
import Chronoplan.Proofs.Documents
import Chronoplan.Proofs.Settings.Trees

/-!
# Settings laid over settings

Two mappings are joined entry by entry as far down as both have mappings, and elsewhere the upper
one wins. What this means is said by paths: a value stands at the end of a path in the joined
mapping when the upper one has it there, or when the lower one has it there and the upper one has
nothing there and no value other than a mapping on the way. What is shared inside the mappings does
not matter for this, as long as none of them is met again inside itself.
-/

set_option autoImplicit false

namespace Chronoplan

namespace Value

/-! ### Plain values -/

/-- The entries of the second table whose keys the first one lacks. -/
def lacking (base upper : Table Value Value) : Table Value Value :=
  upper.filter fun e => (lookup e.1 base).isNone

mutual

/-- A value with another one laid over it, where nothing is shared. -/
def overlay : Value → Value → Value
  | .dict base, .dict upper => .dict (overlayEntries base upper ++ lacking base upper)
  | _, v => v

def overlayEntries : Table Value Value → Table Value Value → Table Value Value
  | [], _ => []
  | (k, b) :: r, upper =>
    (k, match lookup k upper with
      | some v => overlay b v
      | none => b) :: overlayEntries r upper

end

theorem overlay_of_leaf {v : Value} (b : Value) (h : v.isMapping = false) : overlay b v = v := by
  cases v with
  | dict _ => cases h
  | _ => cases b <;> rfl

theorem overlay_over_leaf {b : Value} (v : Value) (h : b.isMapping = false) : overlay b v = v := by
  cases b with
  | dict _ => cases h
  | _ => cases v <;> rfl

theorem overlayEntries_eq_map (base upper : Table Value Value) :
    overlayEntries base upper = base.map fun e => (e.1, match lookup e.1 upper with
      | some v => overlay e.2 v
      | none => e.2) := by
  induction base with
  | nil => rfl
  | cons e base ih => rw [overlayEntries, ih, List.map_cons]

/-- What is found in mappings that are joined. -/
theorem lookup_overlay {base upper : Table Value Value} (hb : Indexed base) (hu : Indexed upper)
    {k : Value} (hk : k.isFindable = true) :
    lookup k (overlayEntries base upper ++ lacking base upper) =
      match lookup k base, lookup k upper with
      | some b, some v => some (overlay b v)
      | some b, none => some b
      | none, v => v := by
  have joined : lookup k (overlayEntries base upper) =
      (lookup k base).map fun b => match lookup k upper with
        | some v => overlay b v
        | none => b := by
    obtain ⟨findable, -⟩ := hb
    induction base with
    | nil => rfl
    | cons e base ih =>
      obtain ⟨here, later⟩ := List.forall_mem_cons.mp findable
      simp only [lookup, overlayEntries, Table.find?] at ih ⊢
      split
      · next same => rw [find?_congr hu.findable here hk same]; rfl
      · exact ih later
  have fresh : lookup k base = none → lookup k (lacking base upper) = lookup k upper := by
    intro none
    refine find?_filter alike k upper _ fun e he same => ?_
    rw [lookup, find?_congr hb.findable (hu.findable e he) hk same, ← lookup, none]
    rfl
  rw [lookup, find?_append, ← lookup, ← lookup, joined]
  cases found : lookup k base with
  | none => exact fresh found
  | some b => cases lookup k upper <;> rfl

/-- What stands at the end of a path in values laid over each other. -/
theorem reach?_overlay {b v : Value} (hb : b.isTree = true) (hv : v.isTree = true)
    {path : List Value} (keys : ∀ k ∈ path, k.isFindable = true) {leaf : Value}
    (hl : leaf.isMapping = false) :
    (overlay b v).reach? path = some leaf ↔ v.reach? path = some leaf ∨
      b.reach? path = some leaf ∧ v.reach? path = none ∧ v.Clear path := by
  induction path generalizing b v with
  | nil =>
    have closed : v.isMapping = false → overlay b v = v := overlay_of_leaf b
    have opened : v.isMapping = true → (overlay b v).isMapping = true := by
      cases v <;> cases b <;> simp [isMapping, overlay]
    simp only [reach?, Option.some.injEq, reduceCtorEq, false_and, and_false, or_false]
    constructor
    · rintro rfl
      exact (closed (Bool.eq_false_iff.mpr fun mapping => by simp [opened mapping] at hl)).symm
    · rintro rfl
      exact closed hl
  | cons k path ih =>
    obtain ⟨hk, rest⟩ := List.forall_mem_cons.mp keys
    rw [clear_cons]
    cases v with
    | dict upper =>
      cases b with
      | dict base =>
        obtain ⟨base_indexed, -⟩ := (isTree_dict_iff base).mp hb
        obtain ⟨upper_indexed, -⟩ := (isTree_dict_iff upper).mp hv
        have lower : ∀ b, lookup k base = some b → b.isTree = true := fun _ => isTree_under hb
        have above : ∀ v, lookup k upper = some v → v.isTree = true := fun _ => isTree_under hv
        simp only [overlay, reach?, under?, lookup_overlay base_indexed upper_indexed hk]
        cases inner : lookup k base with
        | none => simp
        | some b' =>
          cases outer : lookup k upper with
          | none => simp [isMapping]
          | some v' =>
            simpa [isMapping] using ih (lower b' inner) (above v' outer) rest
      | _ => simp [overlay, reach?, under?]
    | _ => simp [overlay, reach?, under?, isMapping]

theorem overlayEntries_eq_self {t upper : Table Value Value}
    (kept : ∀ e ∈ t, ∀ v, lookup e.1 upper = some v → overlay e.2 v = e.2) :
    overlayEntries t upper = t := by
  rw [overlayEntries_eq_map]
  refine (List.map_congr_left fun e he => ?_).trans t.map_id
  cases found : lookup e.1 upper with
  | none => rfl
  | some v => exact Prod.ext rfl (kept e he v found)

theorem lacking_eq_nil {t upper : Table Value Value}
    (found : ∀ e ∈ upper, ∃ v, lookup e.1 t = some v) : lacking t upper = [] := by
  refine List.filter_eq_nil_iff.mpr fun e he => ?_
  obtain ⟨v, hv⟩ := found e he
  rw [hv]
  exact Bool.false_ne_true

theorem overlay_self {v : Value} (h : v.isTree = true) : overlay v v = v := by
  induction v using mappingInduction with
  | leaf v single => exact overlay_of_leaf v single
  | dict t ih =>
    obtain ⟨indexed, below⟩ := (isTree_dict_iff t).mp h
    have entries : overlayEntries t t = t := by
      refine overlayEntries_eq_self fun e he v found => ?_
      cases (indexed.find?_of_mem he).symm.trans found
      exact ih e he (below e he)
    rw [overlay, entries, lacking_eq_nil fun e he => ⟨_, indexed.find?_of_mem he⟩, List.append_nil]

/-- Laying the same value over again changes nothing. -/
theorem overlay_overlay {b v : Value} (hb : b.isTree = true) (hv : v.isTree = true) :
    overlay (overlay b v) v = overlay b v := by
  induction b using mappingInduction generalizing v with
  | leaf b single => rw [overlay_over_leaf v single, overlay_self hv]
  | dict base ih =>
    cases v with
    | dict upper =>
      obtain ⟨lower, below⟩ := (isTree_dict_iff base).mp hb
      obtain ⟨indexed, above⟩ := (isTree_dict_iff upper).mp hv
      have entries : ∀ e ∈ overlayEntries base upper ++ lacking base upper, ∀ v,
          lookup e.1 upper = some v → overlay e.2 v = e.2 := by
        intro e he v found
        rcases List.mem_append.mp he with joined | fresh
        · rw [overlayEntries_eq_map] at joined
          obtain ⟨e', he', rfl⟩ := List.mem_map.mp joined
          obtain ⟨entry, hentry, -, rfl⟩ := exists_of_find? found
          simp only [found]
          exact ih e' he' (below e' he') (above entry hentry)
        · have there := List.mem_of_mem_filter fresh
          cases (indexed.find?_of_mem there).symm.trans found
          exact overlay_self (above e there)
      have found : ∀ e ∈ upper,
          ∃ v, lookup e.1 (overlayEntries base upper ++ lacking base upper) = some v := by
        intro e he
        rw [lookup_overlay lower indexed (indexed.findable e he), lookup, lookup,
          indexed.find?_of_mem he]
        cases Table.find? alike e.1 base with
        | none => exact ⟨_, rfl⟩
        | some b => exact ⟨_, rfl⟩
      rw [overlay, overlay, overlayEntries_eq_self entries, lacking_eq_nil found, List.append_nil]
    | _ => rw [overlay_of_leaf _ rfl, overlay_of_leaf _ rfl]

end Value

/-! ### Shared parts -/

namespace Linked

mutual

/-- Nothing is met again inside itself. -/
def isFinite : Linked → Bool
  | .list _ xs => areFinite xs
  | .tuple xs => areFinite xs
  | .dict _ kvs => holdFinite kvs
  | .again _ _ => false
  | .keyed _ v => isFinite v
  | _ => true

def areFinite : List Linked → Bool
  | [] => true
  | x :: xs => isFinite x && areFinite xs

def holdFinite : Entries → Bool
  | [] => true
  | (_, v) :: r => isFinite v && holdFinite r

end

theorem holdFinite_iff (t : Entries) : holdFinite t = true ↔ ∀ e ∈ t, e.2.isFinite = true := by
  induction t with
  | nil => simp [holdFinite]
  | cons e t ih => rw [holdFinite, Bool.and_eq_true, ih, List.forall_mem_cons]

section

variable (link : Nat) (whole : Linked)

mutual

theorem bind_of_finite : (v : Linked) → v.isFinite = true → bind link whole v = v
  | .leaf _ _, _ => rfl
  | .set _ _, _ => rfl
  | .again _ _, h => by cases h
  | .tuple xs, h => congrArg tuple (bindAll_of_finite xs h)
  | .list l xs, h => congrArg (list l) (bindAll_of_finite xs h)
  | .dict l kvs, h => congrArg (dict l) (bindEntries_of_finite kvs h)
  | .keyed l v, h => congrArg (keyed l) (bind_of_finite v h)

theorem bindAll_of_finite : (xs : List Linked) → areFinite xs = true → bindAll link whole xs = xs
  | [], _ => rfl
  | x :: xs, h => by
    obtain ⟨first, rest⟩ := Bool.and_eq_true_iff.mp h
    rw [bindAll, bind_of_finite x first, bindAll_of_finite xs rest]

theorem bindEntries_of_finite : (t : Entries) → holdFinite t = true → bindEntries link whole t = t
  | [], _ => rfl
  | (k, v) :: t, h => by
    obtain ⟨first, rest⟩ := Bool.and_eq_true_iff.mp h
    rw [bindEntries, bind_of_finite v first, bindEntries_of_finite t rest]

end

end

/-- A finite mapping holds its entries as they stand. -/
theorem entries_of_finite {link : Nat} {t : Entries} (h : holdFinite t = true) :
    entries (.dict link t) = t := by
  rw [entries, bindEntries_of_finite link _ t h, ite_self]

mutual

/-- Every mapping stands for itself, down to the leaves. -/
def isExposed : Linked → Bool
  | .leaf _ v => !v.isMapping
  | .keyed _ _ => false
  | .dict _ kvs => holdExposed kvs
  | _ => true

def holdExposed : Entries → Bool
  | [] => true
  | (_, v) :: r => isExposed v && holdExposed r

end

theorem holdExposed_iff (t : Entries) :
    holdExposed t = true ↔ ∀ e ∈ t, e.2.isExposed = true := by
  induction t with
  | nil => simp [holdExposed]
  | cons e t ih => rw [holdExposed, Bool.and_eq_true, ih, List.forall_mem_cons]

mutual

/-- Where the lower value has a mapping, the upper one does not hide one. -/
def fits : Linked → Linked → Bool
  | .dict _ base, .dict _ upper => fitsAll base upper
  | .dict _ _, v => !v.toValue.isMapping
  | b, _ => !b.toValue.isMapping

def fitsAll : Entries → Entries → Bool
  | [], _ => true
  | (k, b) :: r, upper =>
    (match Settings.lookup k upper with
      | some v => fits b v
      | none => true) && fitsAll r upper

end

theorem toEntries_append (t t' : Entries) : toEntries (t ++ t') = toEntries t ++ toEntries t' := by
  simp only [toEntries_eq_map, List.map_append]

theorem lookup_toEntries (k : Value) (t : Entries) :
    Value.lookup k (toEntries t) = (Settings.lookup k t).map toValue := by
  induction t with
  | nil => rfl
  | cons e t ih =>
    rw [Settings.lookup, Value.lookup] at ih ⊢
    rw [toEntries, Table.find?, Table.find?, ih]
    split <;> rfl

theorem toEntries_missing (base upper : Entries) : toEntries (Settings.missing base upper) =
    Value.lacking (toEntries base) (toEntries upper) := by
  rw [Settings.missing, Value.lacking, toEntries_eq_map, toEntries_eq_map upper, List.filter_map]
  congr 1
  refine List.filter_congr fun e _ => ?_
  simp [lookup_toEntries]

theorem mergeValue_of_leaf (b : Linked) {v : Linked} (other : ∀ l t, v ≠ .dict l t) :
    Settings.mergeValue b v = v := by
  cases v with
  | dict l t => exact absurd rfl (other l t)
  | _ => cases b <;> rfl

theorem mergeValue_over_leaf {b : Linked} (v : Linked) (other : ∀ l t, b ≠ .dict l t) :
    Settings.mergeValue b v = v := by
  cases b with
  | dict l t => exact absurd rfl (other l t)
  | _ => cases v <;> rfl

mutual

/-- Values are laid over each other as the plain values are. -/
theorem toValue_mergeValue (b v : Linked) (fit : fits b v = true) (finite : v.isFinite = true) :
    toValue (Settings.mergeValue b v) = Value.overlay (toValue b) (toValue v) := by
  cases b with
  | dict l base =>
    cases v with
    | dict l' upper =>
      simp only [Settings.mergeValue, entries_of_finite finite, toValue, toEntries_append,
        toEntries_mergeEntries base upper fit finite, toEntries_missing, Value.overlay]
    | _ =>
      rw [mergeValue_of_leaf _ (by simp), Value.overlay_of_leaf _ (by simpa [fits] using fit)]
  | _ =>
    rw [mergeValue_over_leaf _ (by simp),
      Value.overlay_over_leaf _ (by simpa [fits] using fit)]

theorem toEntries_mergeEntries (base upper : Entries) (fit : fitsAll base upper = true)
    (finite : holdFinite upper = true) : toEntries (Settings.mergeEntries base upper) =
      Value.overlayEntries (toEntries base) (toEntries upper) := by
  cases base with
  | nil => rfl
  | cons e base =>
    obtain ⟨k, b⟩ := e
    obtain ⟨first, rest⟩ := Bool.and_eq_true_iff.mp fit
    rw [Settings.mergeEntries, toEntries, toEntries, Value.overlayEntries, lookup_toEntries,
      toEntries_mergeEntries base upper rest finite]
    cases found : Settings.lookup k upper with
    | none => rfl
    | some v =>
      obtain ⟨e, he, -, rfl⟩ := exists_of_find? found
      rw [found] at first
      have joined := toValue_mergeValue b e.2 first ((holdFinite_iff upper).mp finite e he)
      simp only [joined, Option.map_some]

end

theorem isMapping_of_exposed {v : Linked} (h : v.isExposed = true)
    (other : ∀ l t, v ≠ .dict l t) : v.toValue.isMapping = false := by
  cases v with
  | leaf l v => simpa [isExposed, toValue] using h
  | dict l t => exact absurd rfl (other l t)
  | keyed l v => cases h
  | _ => rfl

mutual

theorem fits_of_exposed (b v : Linked) (hb : b.isExposed = true) (hv : v.isExposed = true) :
    fits b v = true := by
  cases b with
  | dict l base =>
    cases v with
    | dict l' upper => exact fitsAll_of_exposed base upper hb hv
    | _ => simp [fits, isMapping_of_exposed hv]
  | _ => simp [fits, isMapping_of_exposed hb]

theorem fitsAll_of_exposed (base upper : Entries) (hb : holdExposed base = true)
    (hu : holdExposed upper = true) : fitsAll base upper = true := by
  cases base with
  | nil => rfl
  | cons e base =>
    obtain ⟨k, b⟩ := e
    obtain ⟨first, rest⟩ := Bool.and_eq_true_iff.mp hb
    rw [fitsAll, fitsAll_of_exposed base upper rest hu, Bool.and_true]
    cases found : Settings.lookup k upper with
    | none => rfl
    | some v =>
      obtain ⟨e, he, -, rfl⟩ := exists_of_find? found
      exact fits_of_exposed b e.2 first ((holdExposed_iff upper).mp hu e he)

end

mutual

theorem isExposed_mergeValue (b v : Linked) (hb : b.isExposed = true) (hv : v.isExposed = true)
    (finite : v.isFinite = true) : (Settings.mergeValue b v).isExposed = true := by
  cases b with
  | dict l base =>
    cases v with
    | dict l' upper =>
      simp only [Settings.mergeValue, entries_of_finite finite]
      refine (holdExposed_iff _).mpr fun e he => ?_
      rcases List.mem_append.mp he with joined | fresh
      · exact (holdExposed_iff _).mp (holdExposed_mergeEntries base upper hb hv finite) e joined
      · exact (holdExposed_iff upper).mp hv e (List.mem_of_mem_filter fresh)
    | _ => rwa [mergeValue_of_leaf _ (by simp)]
  | _ => rwa [mergeValue_over_leaf _ (by simp)]

theorem holdExposed_mergeEntries (base upper : Entries) (hb : holdExposed base = true)
    (hu : holdExposed upper = true) (finite : holdFinite upper = true) :
    holdExposed (Settings.mergeEntries base upper) = true := by
  cases base with
  | nil => rfl
  | cons e base =>
    obtain ⟨k, b⟩ := e
    obtain ⟨first, rest⟩ := Bool.and_eq_true_iff.mp hb
    rw [Settings.mergeEntries, holdExposed, holdExposed_mergeEntries base upper rest hu finite,
      Bool.and_true]
    cases found : Settings.lookup k upper with
    | none => exact first
    | some v =>
      obtain ⟨e, he, -, rfl⟩ := exists_of_find? found
      exact isExposed_mergeValue b e.2 first ((holdExposed_iff upper).mp hu e he)
        ((holdFinite_iff upper).mp finite e he)

end

/-- A mapping of mappings, each of which stands for itself and is not met again inside itself. -/
structure Nested (t : Entries) : Prop where
  finite : holdFinite t = true
  exposed : holdExposed t = true
  tree : (Value.dict (toEntries t)).isTree = true

instance (t : Entries) : Decidable (Nested t) :=
  decidable_of_iff
    (holdFinite t = true ∧ holdExposed t = true ∧ (Value.dict (toEntries t)).isTree = true)
    ⟨fun h => ⟨h.1, h.2.1, h.2.2⟩, fun h => ⟨h.finite, h.exposed, h.tree⟩⟩

theorem dict_merge {base upper : Entries} (fit : fitsAll base upper = true)
    (finite : holdFinite upper = true) :
    Value.dict (toEntries (Settings.merge base upper)) =
      Value.overlay (.dict (toEntries base)) (.dict (toEntries upper)) :=
  toValue_mergeValue (.dict 0 base) (.dict 0 upper) fit finite

end Linked

namespace Settings

theorem mergeEntries_nil (base : Linked.Entries) : mergeEntries base [] = base := by
  induction base with
  | nil => rfl
  | cons e base ih => rw [mergeEntries, ih]; rfl

/-- What joined settings hold. At the end of a path stands the value, other than a mapping, that the
upper mapping has there, or the one that the lower mapping has there when the upper one has nothing
there and only mappings on the way. So joining with the same mapping again changes nothing, and
neither does joining with no entries. -/
theorem merge_by_paths (base upper : Linked.Entries) (hb : Linked.Nested base)
    (hu : Linked.Nested upper) :
    (∀ path leaf, (∀ k ∈ path, k.isFindable = true) → leaf.isMapping = false →
      ((Value.dict (Linked.toEntries (merge base upper))).reach? path = some leaf ↔
        (Value.dict (Linked.toEntries upper)).reach? path = some leaf ∨
        (Value.dict (Linked.toEntries base)).reach? path = some leaf ∧
          (Value.dict (Linked.toEntries upper)).reach? path = none ∧
          (Value.dict (Linked.toEntries upper)).Clear path)) ∧
    Linked.toEntries (merge (merge base upper) upper) = Linked.toEntries (merge base upper) ∧
    merge base [] = base := by
  have exposed : Linked.holdExposed (merge base upper) = true :=
    Linked.isExposed_mergeValue (.dict 0 base) (.dict 0 upper) hb.exposed hu.exposed hu.finite
  have once := Linked.dict_merge (Linked.fitsAll_of_exposed _ _ hb.exposed hu.exposed) hu.finite
  have twice := Linked.dict_merge (Linked.fitsAll_of_exposed _ _ exposed hu.exposed) hu.finite
  refine ⟨fun path leaf keys hl => ?_, ?_, ?_⟩
  · rw [once]
    exact Value.reach?_overlay hb.tree hu.tree keys hl
  · have again := Value.overlay_overlay hb.tree hu.tree
    rw [← once, ← twice] at again
    exact Value.dict.inj again
  · rw [merge, mergeEntries_nil, missing, List.filter_nil, List.append_nil]

end Settings

namespace Greenhouse

/-! ### Settings for the summer

Hours are keys, so the hour 7.0 is the hour 7; the lamps and the shades have one plan. -/

def usual : Linked.Entries :=
  Linked.ofEntries [
    (.str "heat", .dict [(.str "day", .int 18), (.int 7, .str "on")]), (.str "lamps", .int 2)]

def summer : Linked.Entries := [
  (.str "heat", .dict 0 [(.float (.finite 7), .leaf 0 (.str "off"))]),
  (.str "lamps", .dict 1 [(.str "noon", .leaf 0 .null)]),
  (.str "shades", .dict 1 [(.str "noon", .leaf 0 .null)])]

/-- In the summer the heat of the day is the usual one, the lamps have a plan, and the settings for
the summer can be loaded again. -/
theorem summer_over_usual :
    Linked.Nested usual ∧ Linked.Nested summer ∧
    (Value.dict (Linked.toEntries (Settings.merge usual summer))).reach? [.str "heat", .str "day"] =
      some (.int 18) ∧
    (Value.dict (Linked.toEntries (Settings.merge usual summer))).reach? [.str "heat", .int 7] =
      some (.str "off") ∧
    (Value.dict (Linked.toEntries (Settings.merge usual summer))).reach? [.str "lamps"] ≠
      some (.int 2) ∧
    Linked.toEntries (Settings.merge (Settings.merge usual summer) summer) =
      Linked.toEntries (Settings.merge usual summer) := by
  have hu : Linked.Nested usual := by decide +kernel
  have hs : Linked.Nested summer := by decide +kernel
  obtain ⟨paths, again, -⟩ := Settings.merge_by_paths usual summer hu hs
  have below : (Value.dict (Linked.toEntries usual)).reach? [.str "heat", .str "day"] =
      some (.int 18) := by
    simp [usual, Linked.toEntries_ofEntries, Value.reach?, Value.under?, Value.lookup, Table.find?]
  have above : (Value.dict (Linked.toEntries summer)).reach? [.str "heat", .str "day"] = none ∧
      (Value.dict (Linked.toEntries summer)).reach? [.str "heat", .int 7] = some (.str "off") ∧
      (Value.dict (Linked.toEntries summer)).reach? [.str "lamps"] =
        some (.dict [(.str "noon", .null)]) ∧
      (Value.dict (Linked.toEntries summer)).Clear [.str "heat", .str "day"] := by
    simp [summer, Linked.toEntries, Linked.toValue, Value.reach?, Value.under?, Value.lookup,
      Table.find?, Value.alike, Value.eq, Value.sameNaN, Number.eq, Number.place?,
      Value.clear_cons, Value.clear_nil, Value.isMapping]
  obtain ⟨day, seven, lamps, clear⟩ := above
  refine ⟨hu, hs, (paths _ _ (by decide) rfl).mpr (.inr ⟨below, day, clear⟩),
    (paths _ _ (by decide) rfl).mpr (.inl seven), fun kept => ?_, again⟩
  obtain there | ⟨-, there, -⟩ := (paths _ _ (by decide) rfl).mp kept
  · cases lamps.symm.trans there
  · cases lamps.symm.trans there

end Greenhouse

end Chronoplan
