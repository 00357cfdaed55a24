import Chronoplan.Proofs.Faults
import Chronoplan.Proofs.Settings.Merging
import Chronoplan.Proofs.State.Export

/-!
# Settings by paths

A write goes along its path in place. It opens a mapping where there is nothing, and it stops with a
fault where it comes to something else than a mapping, whatever that makes of a key. By then it has
opened nothing, since from a mapping that was opened on it meets only mappings that it opens, so a
write that fails leaves the settings as they were. A write that succeeds is read at its path, and
what is read at paths that neither begin that path nor go on from it stays. Nothing is shared in the
settings here.
-/

set_option autoImplicit false

namespace Chronoplan

namespace Value

/-! ### Entries under texts -/

theorem find?_insert_str {ν : Type} (name other : String) (v : ν) (t : Table Value ν) :
    Table.find? alike (.str other) (t.insert alike (.str name) v) =
      if name = other then some v else Table.find? alike (.str other) t := by
  induction t with
  | nil => simp [Table.insert, Table.find?]
  | cons e t ih =>
    obtain ⟨k, w⟩ := e
    by_cases here : k = .str name
    · subst here
      by_cases same : name = other <;> simp [Table.insert, Table.find?, same]
    · have differ := mt (alike_str_iff k name).mp here
      rw [Table.insert, if_neg differ, Table.find?, Table.find?, ih]
      split
      · next there =>
        have differs : name ≠ other := fun same => here (same ▸ (alike_str_iff k other).mp there)
        rw [if_neg differs]
      · rfl

/-! ### The walk of a write -/

/-- Whether a name is in a value: as a key of a mapping, as an element, or as a part of a text. -/
def holds (name : String) : Value → Except Fault Bool
  | .dict t => .ok (lookup (.str name) t).isSome
  | .list xs => .ok (memberOf (.str name) xs)
  | .tuple xs => .ok (memberOf (.str name) xs)
  | .set xs => .ok (memberOf (.str name) xs)
  | .str s => .ok (decide (name.toList <:+: s.toList))
  | _ => .error .illTyped

/-- Only a mapping can be written to at a name. -/
def assign : Value → String → Value → Except Fault Value
  | .dict t, name, v => .ok (.dict (Table.insert alike (.str name) v t))
  | _, _, _ => .error .illTyped

/-- A write at a path as it is carried out: what is left of the value, and the fault that ended the
walk, if one did. -/
def writeAlong (leaf : Value) : List String → Value → Value × Option Fault
  | [], v => (v, none)
  | [name], v =>
    match v.assign name leaf with
    | .ok v => (v, none)
    | .error f => (v, some f)
  | name :: path, v =>
    match v.holds name with
    | .error f => (v, some f)
    | .ok present =>
      match if present then .ok v else v.assign name (.dict []) with
      | .error f => (v, some f)
      | .ok v =>
        match v.item (.str name) with
        | .error f => (v, some f)
        | .ok inner =>
          -- The inner value is changed where it stands, also when the walk ends in it.
          let (inner, fault) := writeAlong leaf path inner
          ((v.assign name inner).toOption.getD v, fault)

theorem item_dict (t : Table Value Value) (name : String) :
    (Value.dict t).item (.str name) = orFault .unknownKey (lookup (.str name) t) := rfl

section

variable {v : Value} (other : v.isMapping = false)
include other

theorem assign_leaf (name : String) (w : Value) : v.assign name w = .error .illTyped := by
  cases v with
  | dict t => cases other
  | _ => rfl

theorem item_leaf (name : String) : v.item (.str name) = .error .illTyped := by
  cases v with
  | dict t => cases other
  | _ => rfl

theorem holds_leaf (name : String) :
    v.holds name = .error .illTyped ∨ ∃ present, v.holds name = .ok present := by
  cases v with
  | dict t => cases other
  | _ => simp [holds]

/-- A walk that comes to something else than a mapping ends there. -/
theorem writeAlong_leaf (leaf : Value) (name : String) (path : List String) :
    writeAlong leaf (name :: path) v = (v, some .illTyped) := by
  cases path with
  | nil => rw [writeAlong, assign_leaf other]
  | cons next path =>
    simp only [writeAlong, assign_leaf other]
    obtain asked | ⟨present, asked⟩ := holds_leaf other name
    · rw [asked]
    · rw [asked]
      cases present <;> simp [item_leaf other]

end

/-- The walk goes on in the mapping that is there, or in the one that it opens. -/
theorem writeAlong_dict (leaf : Value) (name next : String) (path : List String)
    (t : Table Value Value) :
    writeAlong leaf (name :: next :: path) (.dict t) =
      (.dict (Table.insert alike (.str name)
          (writeAlong leaf (next :: path) ((lookup (.str name) t).getD (.dict []))).1 t),
        (writeAlong leaf (next :: path) ((lookup (.str name) t).getD (.dict []))).2) := by
  have self : alike (.str name) (.str name) = true := (alike_str_iff _ name).mpr rfl
  cases found : lookup (.str name) t with
  | some inner =>
    simp [writeAlong, holds, found, item_dict, orFault, assign, Except.toOption]
  | none =>
    have opened : lookup (.str name) (Table.insert alike (.str name) (.dict []) t) =
        some (.dict []) := by
      rw [lookup, find?_insert_str, if_pos rfl]
    simp [writeAlong, holds, found, item_dict, orFault, assign, Except.toOption, opened,
      insert_insert self]

theorem clear_empty (path : List Value) : (Value.dict []).Clear path := by
  cases path with
  | nil => exact clear_nil _
  | cons k path => exact (clear_cons _ k path).mpr ⟨rfl, fun w found => by cases found⟩

/-- Nothing but mappings stands on the way along a path inside a mapping. -/
theorem clear_dict (t : Table Value Value) (name : String) (path : List Value) :
    (Value.dict t).Clear (.str name :: path) ↔
      ((lookup (.str name) t).getD (.dict [])).Clear path := by
  rw [clear_cons, under?]
  cases lookup (.str name) t with
  | none => simp [isMapping, clear_empty]
  | some w => simp [isMapping]

/-- A walk either writes at the end of its path, or it ends at a value that is no mapping and leaves
everything as it was. -/
theorem writeAlong_cases (leaf : Value) {path : List String} (longer : path ≠ []) (v : Value) :
    (v.Clear (path.map .str) ∧ writeAlong leaf path v = (put leaf path v, none)) ∨
      ¬ v.Clear (path.map .str) ∧ writeAlong leaf path v = (v, some .illTyped) := by
  induction path generalizing v with
  | nil => exact absurd rfl longer
  | cons name path ih =>
    cases v with
    | dict t =>
      rw [List.map_cons, clear_dict]
      cases path with
      | nil => exact .inl ⟨clear_nil _, rfl⟩
      | cons next path =>
        rw [writeAlong_dict]
        obtain ⟨clear, written⟩ | ⟨stuck, left⟩ :=
          ih (List.cons_ne_nil next path) ((lookup (.str name) t).getD (.dict []))
        · exact .inl ⟨clear, by rw [written]; rfl⟩
        · refine .inr ⟨stuck, ?_⟩
          cases found : lookup (.str name) t with
          | none => exact absurd (found ▸ clear_empty _) stuck
          | some inner =>
            rw [found] at left
            rw [Option.getD_some] at left ⊢
            rw [left, insert_of_find? found]
    | _ =>
      refine .inr ⟨fun clear => ?_, writeAlong_leaf rfl leaf name path⟩
      cases ((clear_cons _ _ _).mp clear).1

/-! ### What is read after a write -/

/-- Reading as it is carried out, from item to item. -/
def readAlong : List String → Value → Except Fault Value
  | [], v => .ok v
  | name :: path, v => do readAlong path (← v.item (.str name))

/-- Reading ends at the end of its path, or at an item that is not there or that nothing can have. -/
theorem readAlong_cases (path : List String) (v : Value) :
    (∃ w, v.at? path = some w ∧ readAlong path v = .ok w) ∨
      v.at? path = none ∧
        (readAlong path v = .error .unknownKey ∨ readAlong path v = .error .illTyped) := by
  induction path generalizing v with
  | nil => exact .inl ⟨v, rfl, rfl⟩
  | cons name path ih =>
    rw [at?, readAlong]
    cases v with
    | dict t =>
      rw [field?, item_dict]
      cases lookup (.str name) t with
      | none => exact .inr ⟨rfl, .inl rfl⟩
      | some w => exact ih w
    | _ => exact .inr ⟨rfl, .inr rfl⟩

theorem field?_put (leaf : Value) (name other : String) (path : List String) (v : Value) :
    (put leaf (name :: path) v).field? other =
      if name = other then some (put leaf path ((v.field? name).getD (.dict [])))
      else v.field? other := by
  rw [put, field?, lookup, find?_insert_str, field?_eq v other]

/-- The value is read where it was written. -/
theorem at?_put_self (leaf : Value) (path : List String) (v : Value) :
    (put leaf path v).at? path = some leaf := by
  induction path generalizing v with
  | nil => rfl
  | cons name path ih => rw [at?, field?_put, if_pos rfl, Option.bind_some, ih]

theorem at?_empty {path : List String} (longer : path ≠ []) : (Value.dict []).at? path = none := by
  obtain ⟨name, path, rfl⟩ := List.exists_cons_of_ne_nil longer
  rfl

/-- At a path that neither begins the written one nor goes on from it, what was read is read. -/
theorem at?_put_apart (leaf : Value) (path other : List String) (v : Value)
    (before : ¬ other <+: path) (beyond : ¬ path <+: other) :
    (put leaf path v).at? other = v.at? other := by
  induction path generalizing other v with
  | nil => exact absurd List.nil_prefix beyond
  | cons name path ih =>
    cases other with
    | nil => exact absurd List.nil_prefix before
    | cons name' other =>
      rw [at?, at?, field?_put]
      by_cases same : name = name'
      · subst same
        rw [List.cons_prefix_cons, not_and] at before beyond
        have inner := ih other ((v.field? name).getD (.dict [])) (before rfl) (beyond rfl)
        rw [if_pos rfl, Option.bind_some, inner]
        cases v.field? name with
        | some w => rfl
        | none => exact at?_empty fun empty => before rfl (empty ▸ List.nil_prefix)
      · rw [if_neg same]

end Value

/-! ### Settings in which nothing is shared -/

namespace Linked

theorem lookup_ofEntries (k : Value) (t : Table Value Value) :
    Settings.lookup k (ofEntries t) = (Value.lookup k t).map ofValue := by
  induction t with
  | nil => rfl
  | cons e t ih =>
    rw [Settings.lookup, Value.lookup] at ih ⊢
    rw [ofEntries, Table.find?, Table.find?, ih]
    split <;> rfl

theorem insert_ofEntries (k v : Value) (t : Table Value Value) :
    Table.insert Value.alike k (ofValue v) (ofEntries t) =
      ofEntries (Table.insert Value.alike k v t) := by
  induction t with
  | nil => rfl
  | cons e t ih =>
    rw [ofEntries, Table.insert, Table.insert, ih]
    split <;> rfl

theorem field?_ofValue (name : String) (v : Value) :
    (ofValue v).field? name = (v.field? name).map ofValue := by
  cases v with
  | dict t => exact lookup_ofEntries (.str name) t
  | _ => rfl

end Linked

namespace Settings

theorem find?_ofValue (path : List String) (v : Value) :
    find? path (Linked.ofValue v) = (v.at? path).map Linked.ofValue := by
  induction path generalizing v with
  | nil => rfl
  | cons name path ih =>
    rw [find?, Linked.field?_ofValue, Value.at?]
    cases v.field? name with
    | none => rfl
    | some w => exact ih w

theorem owner?_ofEntries (path : List String) (t : Table Value Value) :
    owner? path (Linked.ofEntries t) = none := by
  induction path generalizing t with
  | nil => rfl
  | cons name path ih =>
    cases path with
    | nil => rfl
    | cons next path =>
      rw [owner?, Linked.lookup_ofEntries]
      · cases Value.lookup (.str name) t with
        | none => rfl
        | some w =>
          cases w with
          | dict inner => simp [Linked.ofValue, Linked.entries, ih]
          | _ => rfl
      · exact List.cons_ne_nil next path

theorem put_cons (v : Linked) (name next : String) (path : List String) (t : Linked.Entries) :
    put v (name :: next :: path) t =
      match lookup (.str name) t with
      | none => do return t.insert Value.alike (.str name) (.dict 0 (← put v (next :: path) []))
      | some (.dict l inner) => do
        return t.insert Value.alike (.str name) (.dict l (← put v (next :: path) inner))
      | some _ => .error .illTyped := rfl

/-- A write in plain settings is the plain write, and it is refused exactly when something else than
a mapping stands on its way. -/
theorem put_ofEntries (leaf : Value) {path : List String} (longer : path ≠ [])
    (t : Table Value Value) :
    ((Value.dict t).Clear (path.map .str) → put (Linked.ofValue leaf) path (Linked.ofEntries t) =
        .ok (Linked.ofEntries (Value.put leaf path (.dict t)).entries)) ∧
      (¬ (Value.dict t).Clear (path.map .str) →
        put (Linked.ofValue leaf) path (Linked.ofEntries t) = .error .illTyped) := by
  induction path generalizing t with
  | nil => exact absurd rfl longer
  | cons name path ih =>
    rw [List.map_cons, Value.clear_dict]
    cases path with
    | nil =>
      refine ⟨fun _ => ?_, fun stuck => absurd (Value.clear_nil _) stuck⟩
      rw [put, Linked.insert_ofEntries]
      rfl
    | cons next path =>
      have deeper := ih (List.cons_ne_nil next path)
      have joined : ∀ inner, Linked.ofValue (Value.put leaf (next :: path) inner) =
          .dict 0 (Linked.ofEntries (Value.put leaf (next :: path) inner).entries) := fun _ => rfl
      rw [put_cons, Linked.lookup_ofEntries, Value.put, Value.field?_eq, Value.entries,
        Value.entries, ← Value.lookup, ← Linked.insert_ofEntries, joined]
      cases Value.lookup (.str name) t with
      | none =>
        obtain ⟨opened, -⟩ := deeper []
        refine ⟨fun _ => ?_, fun stuck => absurd (Value.clear_empty _) stuck⟩
        have fresh := opened (Value.clear_empty _)
        rw [Linked.ofEntries] at fresh
        simp [fresh]
      | some w =>
        cases w with
        | dict inner =>
          obtain ⟨written, refused⟩ := deeper inner
          refine ⟨fun clear => ?_, fun stuck => ?_⟩
          · simp [Linked.ofValue, written clear]
          · simp [Linked.ofValue, refused stuck]
        | _ =>
          refine ⟨fun clear => ?_, fun _ => rfl⟩
          cases ((Value.clear_cons _ _ _).mp clear).1

/-- What is read at a dotted path, with something to stand for what is not there. -/
def get (s : Settings) (path : String) (default : Value) : Value :=
  ((s.get? path).map Linked.toValue).getD default

theorem get_ofEntries (t : Table Value Value) (path : String) (default : Value) :
    get ⟨Linked.ofEntries t⟩ path default =
      ((Value.dict t).at? (splitText '.' path)).getD default := by
  have found := find?_ofValue (splitText '.' path) (.dict t)
  rw [Linked.ofValue] at found
  rw [get, get?, found, Option.map_map]
  cases (Value.dict t).at? (splitText '.' path) <;> simp

/-- What is read is the item at the end of the path, or what stands for it where reading fails. -/
theorem get_eq_readAlong (t : Table Value Value) (path : String) (default : Value) :
    get ⟨Linked.ofEntries t⟩ path default =
      match Value.readAlong (splitText '.' path) (.dict t) with
      | .ok v => v
      | .error _ => default := by
  rw [get_ofEntries]
  obtain ⟨w, found, read⟩ | ⟨missing, stopped⟩ :=
    Value.readAlong_cases (splitText '.' path) (.dict t)
  · rw [found, read]
    rfl
  · rw [missing]
    rcases stopped with read | read <;> rw [read] <;> rfl

theorem splitText_ne_nil (separator : Char) (s : String) : splitText separator s ≠ [] := by
  simpa [splitText] using splitChars_ne_nil separator s.toList

theorem set_ofEntries (t : Table Value Value) (path : String) (v : Value) :
    set ⟨Linked.ofEntries t⟩ path v = do
      return ⟨← put (Linked.ofValue v) (splitText '.' path) (Linked.ofEntries t)⟩ := by
  simp [set, owner?_ofEntries]

/-- A write in settings in which nothing is shared. One that succeeds leaves such settings, its value
is read at its path, whatever stands for what is missing, and at a path that neither begins this
path nor goes on from it the same is read as before. One that fails leaves all as it was. It succeeds
exactly when there are only mappings on its way. -/
theorem set_then_get (t : Table Value Value) (path : String) (v : Value) :
    (∀ s, set ⟨Linked.ofEntries t⟩ path v = .ok s →
      ∃ t', s = ⟨Linked.ofEntries t'⟩ ∧
        Value.writeAlong v (splitText '.' path) (.dict t) = (.dict t', none) ∧
        (∀ default, s.get path default = v) ∧
        ∀ other default, ¬ splitText '.' other <+: splitText '.' path →
          ¬ splitText '.' path <+: splitText '.' other →
          s.get other default = get ⟨Linked.ofEntries t⟩ other default) ∧
    (∀ f, set ⟨Linked.ofEntries t⟩ path v = .error f → f = .illTyped ∧
      Value.writeAlong v (splitText '.' path) (.dict t) = (.dict t, some f)) ∧
    ((∃ s, set ⟨Linked.ofEntries t⟩ path v = .ok s) ↔
      (Value.dict t).Clear ((splitText '.' path).map .str)) := by
  have longer := splitText_ne_nil '.' path
  obtain ⟨written, refused⟩ := put_ofEntries v longer t
  rw [set_ofEntries]
  obtain ⟨clear, walked⟩ | ⟨stuck, walked⟩ := Value.writeAlong_cases v longer (.dict t)
  · obtain ⟨t', ht'⟩ : ∃ t', Value.put v (splitText '.' path) (.dict t) = .dict t' := by
      obtain ⟨name, rest, parts⟩ := List.exists_cons_of_ne_nil longer
      exact ⟨_, by rw [parts, Value.put]⟩
    rw [written clear, ht', Value.entries]
    refine ⟨?_, fun f failed => (by cases failed), iff_of_true ⟨_, rfl⟩ clear⟩
    intro s hs
    cases hs
    refine ⟨t', rfl, by rw [walked, ht'], fun default => ?_, fun other default before beyond => ?_⟩
    · rw [get_ofEntries, ← ht', Value.at?_put_self, Option.getD_some]
    · rw [get_ofEntries, get_ofEntries, ← ht', Value.at?_put_apart v _ _ _ before beyond]
  · rw [refused stuck]
    refine ⟨fun s done => (by cases done), ?_, iff_of_false ?_ stuck⟩
    · intro f hf
      cases hf
      exact ⟨rfl, walked⟩
    · rintro ⟨s, done⟩
      cases done

end Settings

namespace Cellar

/-! ### Settings of a cellar

The word of a path can be a part of the note, which is a text and holds nothing. -/

def stored : Table Value Value :=
  [(.str "rack", .dict [(.str "low", .int 4)]), (.str "note", .str "keep cold")]

/-- A new rack is entered beside the old one, and nothing can be entered in the note. -/
theorem stored_racks :
    (∃ s, Settings.set ⟨Linked.ofEntries stored⟩ "rack.high.left" (.int 2) = .ok s ∧
      s.get "rack.high.left" .null = .int 2 ∧
      s.get "rack.low" .null = Settings.get ⟨Linked.ofEntries stored⟩ "rack.low" .null) ∧
    Settings.set ⟨Linked.ofEntries stored⟩ "note.cold.left" (.int 2) = .error .illTyped ∧
    Value.writeAlong (.int 2) ["note", "cold", "left"] (.dict stored) =
      (.dict stored, some .illTyped) := by
  have rack : splitText '.' "rack.high.left" = ["rack", "high", "left"] := by decide
  have low : splitText '.' "rack.low" = ["rack", "low"] := by decide
  have note : splitText '.' "note.cold.left" = ["note", "cold", "left"] := by decide
  obtain ⟨written, -, accepted⟩ :=
    Settings.set_then_get stored "rack.high.left" (.int 2)
  obtain ⟨-, refused, accepted'⟩ := Settings.set_then_get stored "note.cold.left" (.int 2)
  constructor
  · have clear : (Value.dict stored).Clear ((splitText '.' "rack.high.left").map .str) := by
      rw [rack]
      simp [stored, Value.clear_dict, Value.lookup, Table.find?, Value.clear_nil]
    obtain ⟨s, hs⟩ := accepted.mpr clear
    obtain ⟨t', -, -, reads, frame⟩ := written s hs
    refine ⟨s, hs, reads .null, frame _ _ ?_ ?_⟩
    · rw [rack, low]
      decide
    · rw [rack, low]
      decide
  · have stuck : ¬ (Value.dict stored).Clear ((splitText '.' "note.cold.left").map .str) := by
      rw [note, List.map_cons, Value.clear_dict]
      simp [stored, Value.clear_cons, Value.lookup, Table.find?, Value.isMapping]
    cases hs : Settings.set ⟨Linked.ofEntries stored⟩ "note.cold.left" (.int 2) with
    | ok s => exact absurd (accepted'.mp ⟨s, hs⟩) stuck
    | error f =>
      obtain ⟨rfl, left⟩ := refused f hs
      exact ⟨rfl, note ▸ left⟩

end Cellar

end Chronoplan
