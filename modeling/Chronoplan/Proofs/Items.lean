import Chronoplan.Proofs.Documents
import Chronoplan.Proofs.Faults
import Chronoplan.Proofs.State.Mappings

/-!
# Work items and the mappings that describe them

An item that is read from its own mapping has texts for its names and tuples for its lists of
entities. These are the items that are ever read, so each of them is read again from what is
written of it, also when its tuples of entities have become lists on the way.
-/

set_option autoImplicit false

namespace Chronoplan

namespace Value

/-- A tuple as a list. -/
def listed : Value → Value
  | .tuple xs => .list xs
  | v => v

mutual

/-- The value with lists in place of its tuples, in any depth. -/
def unpacked : Value → Value
  | .list xs => .list (unpackedAll xs)
  | .tuple xs => .list (unpackedAll xs)
  | .dict kvs => .dict (unpackedEntries kvs)
  | v => v

def unpackedAll : List Value → List Value
  | [] => []
  | x :: xs => unpacked x :: unpackedAll xs

def unpackedEntries : List (Value × Value) → List (Value × Value)
  | [] => []
  | (k, v) :: r => (k, unpacked v) :: unpackedEntries r

end

mutual

theorem unpacked_document : (v : Value) → v.isDocument = true → v.unpacked = v
  | .list xs, h => congrArg Value.list (unpackedAll_document xs h)
  | .dict kvs, h => congrArg Value.dict (unpackedEntries_document kvs h)
  | .null, _ => rfl
  | .num _, _ => rfl
  | .str _, _ => rfl

theorem unpackedAll_document : (xs : List Value) → areDocuments xs = true → unpackedAll xs = xs
  | [], _ => rfl
  | x :: xs, h => by
    obtain ⟨first, rest⟩ := Bool.and_eq_true_iff.mp h
    rw [unpackedAll, unpacked_document x first, unpackedAll_document xs rest]

theorem unpackedEntries_document : (kvs : List (Value × Value)) → holdDocuments kvs = true →
    unpackedEntries kvs = kvs
  | [], _ => rfl
  | (k, v) :: r, h => by
    obtain ⟨⟨s, hs⟩, first⟩ := (holdDocuments_iff _).mp h (k, v) List.mem_cons_self
    cases hs
    obtain ⟨-, rest⟩ := Bool.and_eq_true_iff.mp h
    rw [unpackedEntries, unpacked_document v first, unpackedEntries_document r rest]

end

theorem unpackedAll_eq_map (xs : List Value) : unpackedAll xs = xs.map unpacked := by
  induction xs with
  | nil => rfl
  | cons x xs ih => rw [unpackedAll, ih, List.map_cons]

end Value

/-! ### Reading an item from its own mapping -/

/-- The demand with a text for its predicate and no list for its entity. -/
def Unigoal.normal (g : Unigoal) : Unigoal :=
  { predicate := .str g.predicate.text, entity := WorkItem.entityOf g.entity, target := g.target }

def Unigoal.Written (g : Unigoal) : Prop := g.predicate.IsText ∧ ∀ xs, g.entity ≠ .list xs

theorem Value.str_text_eq_iff (v : Value) : Value.str v.text = v ↔ v.IsText := by
  constructor
  · intro same
    exact ⟨_, same.symm⟩
  · rintro ⟨s, rfl⟩
    rfl

theorem Value.entityOf_eq_iff (v : Value) :
    WorkItem.entityOf v = v ↔ ∀ xs, v ≠ .list xs := by
  cases v <;> simp [WorkItem.entityOf]

theorem Unigoal.normal_eq_iff (g : Unigoal) : g.normal = g ↔ g.Written := by
  obtain ⟨p, e, t⟩ := g
  simp only [normal, Written, Unigoal.mk.injEq, Value.str_text_eq_iff, Value.entityOf_eq_iff,
    and_true]

theorem Unigoal.written_normal (g : Unigoal) : g.normal.Written := by
  refine ⟨⟨_, rfl⟩, ?_⟩
  cases h : g.entity <;> simp [normal, h, WorkItem.entityOf]

namespace WorkItem

/-- The item with texts for its names and no list for an entity. -/
def normal : WorkItem → WorkItem
  | .command c => .command { c with name := .str c.name.text }
  | .task t => .task { t with name := .str t.name.text }
  | .goal (.single g) => .goal (.single g.normal)
  | .goal (.several m) =>
    .goal (.several { goals := m.goals.map Unigoal.normal, tag := .str m.tag.text })

def Written : WorkItem → Prop
  | .command c => c.name.IsText
  | .task t => t.name.IsText
  | .goal (.single g) => g.Written
  | .goal (.several m) => m.tag.IsText ∧ ∀ g ∈ m.goals, g.Written

/-- The item with its entities replaced. -/
def withEntities (f : Value → Value) : WorkItem → WorkItem
  | .command c => .command c
  | .task t => .task t
  | .goal (.single g) => .goal (.single { g with entity := f g.entity })
  | .goal (.several m) =>
    .goal (.several { m with goals := m.goals.map fun g => { g with entity := f g.entity } })

theorem normal_eq_iff (i : WorkItem) : i.normal = i ↔ i.Written := by
  cases i with
  | command c =>
    obtain ⟨name, args⟩ := c
    simp [normal, Written, Value.str_text_eq_iff]
  | task t =>
    obtain ⟨name, args⟩ := t
    simp [normal, Written, Value.str_text_eq_iff]
  | goal g =>
    cases g with
    | single g => simp [normal, Written, Unigoal.normal_eq_iff]
    | several m =>
      obtain ⟨goals, tag⟩ := m
      have all : goals.map Unigoal.normal = goals ↔ ∀ g ∈ goals, g.Written := by
        have each : goals.map Unigoal.normal = goals.map id ↔ ∀ g ∈ goals, g.normal = id g :=
          List.map_inj_left
        simpa [Unigoal.normal_eq_iff] using each
      simp [normal, Written, Value.str_text_eq_iff, all, and_comm]

theorem written_normal (i : WorkItem) : i.normal.Written := by
  cases i with
  | command c => exact ⟨_, rfl⟩
  | task t => exact ⟨_, rfl⟩
  | goal g =>
    cases g with
    | single g => exact g.written_normal
    | several m =>
      refine ⟨⟨_, rfl⟩, fun g hg => ?_⟩
      obtain ⟨g', -, rfl⟩ := List.mem_map.mp hg
      exact g'.written_normal

theorem normal_withEntities {i : WorkItem} (h : i.Written) :
    (i.withEntities Value.listed).normal = i := by
  have back : ∀ g : Unigoal, g.Written →
      Unigoal.normal { g with entity := g.entity.listed } = g := by
    rintro ⟨p, e, t⟩ ⟨⟨s, rfl⟩, notList⟩
    cases e <;> simp_all [Unigoal.normal, Value.listed, entityOf, Value.text]
  cases i with
  | command c => exact (normal_eq_iff _).mpr h
  | task t => exact (normal_eq_iff _).mpr h
  | goal g =>
    cases g with
    | single g => exact congrArg (WorkItem.goal ∘ Goal.single) (back g h)
    | several m =>
      obtain ⟨goals, tag⟩ := m
      obtain ⟨⟨s, rfl⟩, all⟩ := h
      have each : (goals.map fun g => { g with entity := g.entity.listed }).map Unigoal.normal =
          goals := by
        rw [List.map_map]
        exact (List.map_congr_left fun g hg => back g (all g hg)).trans (List.map_id goals)
      rw [withEntities, normal, each]
      rfl

/-- The names of the item are texts, whatever its entities are. -/
def Titled : WorkItem → Prop
  | .command c => c.name.IsText
  | .task t => t.name.IsText
  | .goal (.single g) => g.predicate.IsText
  | .goal (.several m) => m.tag.IsText ∧ ∀ g ∈ m.goals, g.predicate.IsText

theorem Written.titled {i : WorkItem} (h : i.Written) : i.Titled := by
  cases i with
  | command c => exact h
  | task t => exact h
  | goal g =>
    cases g with
    | single g => exact h.1
    | several m => exact ⟨h.1, fun g hg => (h.2 g hg).1⟩

theorem Titled.withEntities {i : WorkItem} (h : i.Titled) (f : Value → Value) :
    (i.withEntities f).Titled := by
  cases i with
  | command c => exact h
  | task t => exact h
  | goal g =>
    cases g with
    | single g => exact h
    | several m =>
      refine ⟨h.1, fun g hg => ?_⟩
      obtain ⟨g', hg', rfl⟩ := List.mem_map.mp hg
      exact h.2 g' hg'

theorem goalEntry_triple {g : Unigoal} (h : g.predicate.IsText) :
    goalEntry (.list [g.predicate, g.entity, g.target]) = .ok g.normal := by
  obtain ⟨p, e, t⟩ := g
  obtain ⟨s, rfl⟩ := h
  rfl

/-- An item whose names are texts is read, with its lists of entities made tuples. -/
theorem ofValue_toValue {i : WorkItem} (h : i.Titled) : ofValue i.toValue = .ok i.normal := by
  cases i with
  | command c =>
    obtain ⟨name, args⟩ := c
    obtain ⟨s, rfl⟩ := h
    simp [toValue, callValue, ofValue, argsOf, Value.field?, Value.lookup, Table.find?, normal,
      Value.text]
  | task t =>
    obtain ⟨name, args⟩ := t
    obtain ⟨s, rfl⟩ := h
    simp [toValue, callValue, ofValue, argsOf, Value.field?, Value.lookup, Table.find?, normal,
      Value.text]
  | goal g =>
    cases g with
    | single g =>
      obtain ⟨p, e, t⟩ := g
      obtain ⟨s, rfl⟩ := h
      simp [toValue, ofValue, argsOf, unigoalOf, Value.field?, Value.lookup, Table.find?, normal,
        Unigoal.normal, Value.text]
    | several m =>
      obtain ⟨goals, tag⟩ := m
      obtain ⟨⟨s, rfl⟩, titled⟩ := h
      have read : (goals.map fun g => Value.list [g.predicate, g.entity, g.target]).mapM
          goalEntry = .ok (goals.map Unigoal.normal) := by
        rw [mapM_eq_ok_iff, List.forall₂_map_left_iff, List.forall₂_map_right_iff]
        exact List.forall₂_same.mpr fun g hg => goalEntry_triple (titled g hg)
      simp [toValue, ofValue, argsOf, Value.field?, Value.lookup, Table.find?, normal,
        Value.elements, read, Value.text]

/-! ### What is read -/

/-- An entry of several goals in which a goal is written. -/
def Triple (entry : Value) (g : Unigoal) : Prop :=
  entry = .list [g.predicate, g.entity, g.target] ∨
    entry = .tuple [g.predicate, g.entity, g.target]

/-- None of the texts is a key of the mapping. -/
def Lacks (data : Value) (names : List String) : Prop := ∀ name ∈ names, data.field? name = none

/-- Goals are asked for, and no loop runs through them. -/
structure Uncounted (data : Value) : Prop where
  args : ∃ args, argsOf data = .ok args
  earlier : Lacks data ["command", "task", "unigoal"]
  goals : ∃ v, data.field? "multigoal" = some v ∧ v.isSingle = true

/-- What a value gives for the names of the item that it is read as. -/
inductive Names (data : Value) : Value → Prop
  | command (v : Value) (given : data.field? "command" = some v) : Names data v
  | task (v : Value) (earlier : Lacks data ["command"]) (given : data.field? "task" = some v) :
    Names data v
  | single (v : Value) (earlier : Lacks data ["command", "task"])
    (given : data.field? "unigoal" = some v) : Names data v
  | goal (earlier : Lacks data ["command", "task", "unigoal"]) (v : Value)
    (given : data.field? "multigoal" = some v) (entries : List Value)
    (counted : v.elements = .ok entries) (entry : Value) (listed : entry ∈ entries) (g : Unigoal)
    (written : Triple entry g) : Names data g.predicate
  | tag (earlier : Lacks data ["command", "task", "unigoal"]) (v : Value)
    (given : data.field? "tag" = some v) : Names data v

/-- What a value is read as: an item, a refusal that names what is wrong, or neither of them. -/
inductive Reading (data : Value) : Except Fault WorkItem → Prop
  | command (c : Call) (given : data.field? "command" = some c.name)
    (args : argsOf data = .ok c.args) : Reading data (.ok (normal (.command c)))
  | task (t : Call) (earlier : Lacks data ["command"]) (given : data.field? "task" = some t.name)
    (args : argsOf data = .ok t.args) : Reading data (.ok (normal (.task t)))
  | single (g : Unigoal) (earlier : Lacks data ["command", "task"])
    (given : data.field? "unigoal" = some g.predicate)
    (entity : data.field? "entity" = some g.entity)
    (target : data.field? "target" = some g.target) :
    Reading data (.ok (normal (.goal (.single g))))
  | several (m : Multigoal) (earlier : Lacks data ["command", "task", "unigoal"]) (v : Value)
    (given : data.field? "multigoal" = some v) (entries : List Value)
    (counted : v.elements = .ok entries) (each : List.Forall₂ Triple entries m.goals) :
    Reading data (.ok (normal (.goal (.several m))))
  | shape (other : ∀ kvs, data ≠ .dict kvs) : Reading data (.error (.itemShape data))
  | args (v : Value) (given : data.field? "args" = some v)
    (other : ∀ xs, v ≠ .list xs ∧ v ≠ .tuple xs) : Reading data (.error (.argumentShape data))
  | parts (p : Value) (earlier : Lacks data ["command", "task"])
    (given : data.field? "unigoal" = some p) (missing : List String) (short : missing ≠ [])
    (absent : Lacks data missing) : Reading data (.error (.missingGoalParts p missing))
  | goal (earlier : Lacks data ["command", "task", "unigoal"]) (v : Value)
    (given : data.field? "multigoal" = some v) (entries : List Value)
    (counted : v.elements = .ok entries) (entry : Value) (listed : entry ∈ entries)
    (other : ∀ g, ¬Triple entry g) : Reading data (.error (.goalShape entry))
  | unrecognized (absent : Lacks data ["command", "task", "unigoal", "multigoal"]) :
    Reading data (.error (.unrecognizedItem data))
  /-- A name has too many digits. -/
  | unwritten (v : Value) (named : Names data v) (long : v.isWritable = false) :
    Reading data (.error .malformed)
  | uncounted (h : Uncounted data) : Reading data (.error .illTyped)

theorem goalEntry_of_triple {entry : Value} {g : Unigoal} (h : Triple entry g) :
    goalEntry entry = (do
      return { predicate := .str (← g.predicate.spell), entity := entityOf g.entity,
               target := g.target }) := by
  obtain rfl | rfl := h <;> rfl

theorem goalEntry_of_other {entry : Value} (other : ∀ g, ¬Triple entry g) :
    goalEntry entry = .error (.goalShape entry) := by
  unfold goalEntry
  cases entry with
  | list xs =>
    match xs with
    | [p, e, t] => exact absurd (.inl rfl) (other ⟨p, e, t⟩)
    | [] | [_] | [_, _] | _ :: _ :: _ :: _ :: _ => rfl
  | tuple xs =>
    match xs with
    | [p, e, t] => exact absurd (.inr rfl) (other ⟨p, e, t⟩)
    | [] | [_] | [_, _] | _ :: _ :: _ :: _ :: _ => rfl
  | _ => rfl

theorem goalEntry_eq_ok {entry : Value} {g : Unigoal} (h : goalEntry entry = .ok g) :
    ∃ g', Triple entry g' ∧ g = g'.normal := by
  by_cases written : ∃ g', Triple entry g'
  · obtain ⟨g', triple⟩ := written
    rw [goalEntry_of_triple triple] at h
    obtain ⟨-, spelled⟩ | ⟨-, fault⟩ := g'.predicate.spell_cases
    · rw [spelled, ok_bind] at h
      cases h
      exact ⟨g', triple, rfl⟩
    · rw [fault] at h
      cases h
  · rw [goalEntry_of_other (not_exists.mp written)] at h
    cases h

theorem goalEntry_eq_error {entry : Value} {f : Fault} (h : goalEntry entry = .error f) :
    (f = .goalShape entry ∧ ∀ g, ¬Triple entry g) ∨
      f = .malformed ∧ ∃ g, Triple entry g ∧ g.predicate.isWritable = false := by
  by_cases written : ∃ g, Triple entry g
  · obtain ⟨g, triple⟩ := written
    rw [goalEntry_of_triple triple] at h
    obtain ⟨-, spelled⟩ | ⟨long, fault⟩ := g.predicate.spell_cases
    · rw [spelled] at h
      cases h
    · rw [fault] at h
      cases h
      exact .inr ⟨rfl, g, triple, long⟩
  · have other := not_exists.mp written
    rw [goalEntry_of_other other] at h
    cases h
    exact .inl ⟨rfl, other⟩

theorem exists_of_mapM_goalEntry {entries : List Value} {goals : List Unigoal}
    (h : entries.mapM goalEntry = .ok goals) :
    ∃ goals', goals = goals'.map Unigoal.normal ∧ List.Forall₂ Triple entries goals' := by
  have each := (mapM_eq_ok_iff _ _ _).mp h
  induction each with
  | nil => exact ⟨[], rfl, .nil⟩
  | cons here later ih =>
    obtain ⟨g, triple, rfl⟩ := goalEntry_eq_ok here
    obtain ⟨goals', rfl, rest⟩ := ih ((mapM_eq_ok_iff _ _ _).mpr later)
    exact ⟨g :: goals', rfl, .cons triple rest⟩

theorem argsOf_cases (data : Value) : (∃ args, argsOf data = .ok args) ∨
    argsOf data = .error (.argumentShape data) ∧ ∃ v, data.field? "args" = some v ∧
      ∀ xs, v ≠ .list xs ∧ v ≠ .tuple xs := by
  unfold argsOf
  cases h : data.field? "args" with
  | none => exact .inl ⟨[], rfl⟩
  | some v =>
    cases v with
    | list xs => exact .inl ⟨xs, rfl⟩
    | tuple xs => exact .inl ⟨xs, rfl⟩
    | _ => exact .inr ⟨rfl, _, rfl, by simp⟩

theorem reading_single {data p : Value} (earlier : Lacks data ["command", "task"])
    (given : data.field? "unigoal" = some p) : Reading data (do
      return .goal (.single (← unigoalOf data p))) := by
  unfold unigoalOf
  cases entity : data.field? "entity" with
  | none =>
    cases target : data.field? "target" with
    | none => exact .parts p earlier given _ (by simp) (by simp [Lacks, entity, target])
    | some t => exact .parts p earlier given _ (by simp) (by simp [Lacks, entity])
  | some e =>
    cases target : data.field? "target" with
    | none => exact .parts p earlier given _ (by simp) (by simp [Lacks, target])
    | some t =>
      obtain ⟨-, spelled⟩ | ⟨long, fault⟩ := p.spell_cases
      · simp only [spelled, ok_bind]
        exact .single ⟨p, e, t⟩ earlier given entity target
      · simp only [fault, error_bind]
        exact .unwritten p (.single p earlier given) long

theorem reading_several {data v : Value} (args : ∃ args, argsOf data = .ok args)
    (earlier : Lacks data ["command", "task", "unigoal"])
    (given : data.field? "multigoal" = some v) : Reading data (do
      let goals ← (← v.elements).mapM goalEntry
      let tag := (data.field? "tag").getD (.str "")
      return .goal (.several { goals, tag := .str (← tag.spell) })) := by
  cases counted : v.elements with
  | error f =>
    obtain ⟨single, rfl⟩ := (Value.elements_eq_error_iff v f).mp counted
    exact .uncounted ⟨args, earlier, v, given, single⟩
  | ok entries =>
    rw [ok_bind]
    cases read : entries.mapM goalEntry with
    | error f =>
      rw [error_bind]
      obtain ⟨entry, listed, fault⟩ := error_of_mapM _ _ _ read
      obtain ⟨rfl, other⟩ | ⟨rfl, g, written, long⟩ := goalEntry_eq_error fault
      · exact .goal earlier v given entries counted entry listed other
      · exact .unwritten _ (.goal earlier v given entries counted entry listed g written) long
    | ok goals =>
      obtain ⟨goals, rfl, each⟩ := exists_of_mapM_goalEntry read
      simp only [ok_bind]
      obtain ⟨-, spelled⟩ | ⟨long, fault⟩ := ((data.field? "tag").getD (.str "")).spell_cases
      · rw [spelled, ok_bind]
        exact .several ⟨goals, _⟩ earlier v given entries counted each
      · rw [fault, error_bind]
        cases tag : data.field? "tag" with
        | none =>
          rw [tag] at long
          cases long
        | some t =>
          rw [tag] at long
          exact .unwritten t (.tag earlier t tag) long

theorem reading (data : Value) : Reading data (ofValue data) := by
  cases data with
  | dict kvs =>
    rw [ofValue]
    generalize Value.dict kvs = data
    obtain ⟨args, hargs⟩ | ⟨fault, v, given, other⟩ := argsOf_cases data
    · rw [hargs, ok_bind]
      cases command : data.field? "command" with
      | some c =>
        obtain ⟨-, spelled⟩ | ⟨long, fault⟩ := c.spell_cases
        · simp only [spelled, ok_bind]
          exact .command ⟨c, args⟩ command hargs
        · simp only [fault, error_bind]
          exact .unwritten c (.command c command) long
      | none =>
        cases task : data.field? "task" with
        | some t =>
          have earlier : Lacks data ["command"] := by simp [Lacks, command]
          obtain ⟨-, spelled⟩ | ⟨long, fault⟩ := t.spell_cases
          · simp only [spelled, ok_bind]
            exact .task ⟨t, args⟩ earlier task hargs
          · simp only [fault, error_bind]
            exact .unwritten t (.task t earlier task) long
        | none =>
          cases unigoal : data.field? "unigoal" with
          | some p => exact reading_single (by simp [Lacks, command, task]) unigoal
          | none =>
            cases multigoal : data.field? "multigoal" with
            | none => exact .unrecognized (by simp [Lacks, command, task, unigoal, multigoal])
            | some v =>
              exact reading_several ⟨args, hargs⟩ (by simp [Lacks, command, task, unigoal])
                multigoal
    · rw [fault, error_bind]
      exact .args v given other
  | _ => exact .shape (by simp)

/-! ### Reading again -/

theorem written_ofValue {data : Value} {i : WorkItem} (h : ofValue data = .ok i) : i.Written := by
  have read := reading data
  rw [h] at read
  cases read <;> exact written_normal _

theorem ofValue_written {i : WorkItem} (h : i.Written) : ofValue i.toValue = .ok i := by
  rw [ofValue_toValue h.titled, (normal_eq_iff i).mpr h]

theorem ofValue_withEntities {i : WorkItem} (h : i.Written) :
    ofValue (i.withEntities Value.listed).toValue = .ok i := by
  rw [ofValue_toValue (h.titled.withEntities _), normal_withEntities h]

theorem unpacked_listed (v : Value) : v.listed.unpacked = v.unpacked := by
  cases v <;> rfl

theorem unpacked_toValue (i : WorkItem) :
    (i.withEntities Value.listed).toValue.unpacked = i.toValue.unpacked := by
  cases i with
  | command c => rfl
  | task t => rfl
  | goal g =>
    cases g with
    | single g =>
      simp only [withEntities, toValue, Value.unpacked, Value.unpackedEntries, unpacked_listed]
    | several m =>
      simp only [withEntities, toValue, Value.unpacked, Value.unpackedEntries, Value.unpackedAll,
        Value.unpackedAll_eq_map, List.map_map, Function.comp_def, unpacked_listed]

theorem listed_entityOf {e : Value} (h : e.isDocument = true) : (entityOf e).listed = e := by
  cases e <;> first | rfl | cases h

theorem areDocuments_argsOf {data : Value} {args : List Value} (h : data.isDocument = true)
    (hargs : argsOf data = .ok args) : Value.areDocuments args = true := by
  unfold argsOf at hargs
  split at hargs
  · cases hargs
    rfl
  · next xs given =>
    cases hargs
    exact Value.field?_document h given
  · next xs given => cases Value.field?_document h given
  · cases hargs

/-- What is written of a goal with a list for its entity. -/
def listedGoal (g : Unigoal) : Value :=
  .list [.str g.predicate.text, (entityOf g.entity).listed, g.target]

theorem listedGoal_document {g : Unigoal} (entity : g.entity.isDocument = true)
    (target : g.target.isDocument = true) : (listedGoal g).isDocument = true := by
  simp [listedGoal, Value.isDocument, Value.areDocuments, listed_entityOf entity, entity, target]

theorem listedGoals_document {entries : List Value} {goals : List Unigoal}
    (each : List.Forall₂ Triple entries goals) (h : ∀ x ∈ entries, x.isDocument = true) :
    Value.areDocuments (goals.map listedGoal) = true := by
  induction each with
  | nil => rfl
  | cons here _ ih =>
    obtain ⟨first, rest⟩ := List.forall_mem_cons.mp h
    obtain rfl | rfl := here
    · simp only [Value.isDocument, Value.areDocuments, Bool.and_eq_true] at first
      rw [List.map_cons, Value.areDocuments, ih rest, listedGoal_document first.2.1 first.2.2.1]
      rfl
    · cases first

/-- With lists for its entities, what is written of an item that was read from a document is a
document. -/
theorem withEntities_document {data : Value} {i : WorkItem} (h : data.isDocument = true)
    (read : Reading data (.ok i)) : (i.withEntities Value.listed).toValue.isDocument = true := by
  generalize outcome : Except.ok i = o at read
  cases read with
  | command c given args =>
    cases outcome
    simp [normal, withEntities, toValue, callValue, Value.isDocument, Value.holdDocuments,
      areDocuments_argsOf h args]
  | task t earlier given args =>
    cases outcome
    simp [normal, withEntities, toValue, callValue, Value.isDocument, Value.holdDocuments,
      areDocuments_argsOf h args]
  | single g earlier given entity target =>
    cases outcome
    have he := Value.field?_document h entity
    have ht := Value.field?_document h target
    simp [normal, withEntities, toValue, Unigoal.normal, Value.isDocument, Value.holdDocuments,
      listed_entityOf he, he, ht]
  | several m earlier v given entries counted each =>
    cases outcome
    have docs := Value.elements_document (Value.field?_document h given) counted
    have goals : (m.goals.map listedGoal) = ((m.goals.map Unigoal.normal).map fun g =>
        { g with entity := g.entity.listed }).map fun g =>
          Value.list [g.predicate, g.entity, g.target] := by
      rw [List.map_map, List.map_map]
      rfl
    simp only [normal, withEntities, toValue, ← goals, Value.isDocument, Value.holdDocuments,
      listedGoals_document each docs, Bool.and_true]
  | _ => cases outcome

theorem ofValue_unpacked {data : Value} {i : WorkItem} (h : data.isDocument = true)
    (read : ofValue data = .ok i) : ofValue i.toValue.unpacked = .ok i := by
  have reads := reading data
  rw [read] at reads
  rw [← unpacked_toValue, Value.unpacked_document _ (withEntities_document h reads)]
  exact ofValue_withEntities (written_ofValue read)

end WorkItem

/-! ### There and back -/

/-- An item is read from the mapping that is written of it exactly when its names are texts and no
entity is a list, and every item that is read is one of these. It is also read when its tuples of
entities are lists in that mapping, and when all tuples in it are, if it came from a document. -/
theorem WorkItem.read_as_written :
    (∀ i : WorkItem, ofValue i.toValue = .ok i ↔ i.Written) ∧
    ∀ data i, ofValue data = .ok i → i.Written ∧ ofValue i.toValue = .ok i ∧
      ofValue (i.withEntities Value.listed).toValue = .ok i ∧
      (data.isDocument = true → ofValue i.toValue.unpacked = .ok i) := by
  constructor
  · exact fun i => ⟨written_ofValue, ofValue_written⟩
  · intro data i read
    have written := written_ofValue read
    exact ⟨written, ofValue_written written, ofValue_withEntities written,
      fun document => ofValue_unpacked document read⟩

namespace Depot

/-- Goals with a list for an entity and a number for a predicate and for the tag. -/
def order : Value := .dict [
  (.str "multigoal", .list [
    .list [.str "at", .list [.str "crate", .int 1], .str "dock"],
    .list [.int 5, .str "crane", .bool true]]),
  (.str "tag", .int 7)]

theorem order_read_again : order.isDocument = true ∧ ∃ i, WorkItem.ofValue order = .ok i ∧
    i.kind = .multigoal ∧ i.text = "multigoal<7>(at[('crate', 1)] = dock & 5[crane] = True)" ∧
    i.Written ∧ WorkItem.ofValue i.toValue = .ok i ∧
    WorkItem.ofValue (i.withEntities Value.listed).toValue = .ok i ∧
    WorkItem.ofValue i.toValue.unpacked = .ok i := by
  have read : (WorkItem.ofValue order).toOption.map (fun i => (i.kind, i.text)) =
      some (.multigoal, "multigoal<7>(at[('crate', 1)] = dock & 5[crane] = True)") := by
    decide +kernel
  obtain ⟨i, hi, shown⟩ := Option.map_eq_some_iff.mp read
  obtain ⟨kind, text⟩ := Prod.mk.inj shown
  have hi := toOption_eq_some_iff.mp hi
  obtain ⟨written, again, listed, unpacked⟩ := WorkItem.read_as_written.2 order i hi
  exact ⟨rfl, i, hi, kind, text, written, again, listed, unpacked rfl⟩

end Depot

end Chronoplan
