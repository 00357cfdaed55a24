import Chronoplan.Sorting.Galloping
import Chronoplan.Value.Digest
import Chronoplan.Value.Order

/-!
# World states

A state maps facts to values. A fact is identified by a category, a name and a tuple of entities;
keys that are equal as values are one fact, however they are written. Writing yields a new state,
so a state held by one branch of a search never changes under it. Enumeration is by category,
name and the texts of the entities; facts whose texts agree stay in the order of their first
writing. A fact whose entities cannot be written stops it.
-/

set_option autoImplicit false

namespace Chronoplan

structure FactKey where
  category : Value
  name : Value
  entities : List Value

def defaultCategory : Value := .str "predicate"

namespace FactKey

def same (a b : FactKey) : Bool :=
  a.category.alike b.category && a.name.alike b.name && Value.eqAll a.entities b.entities

def storable (k : FactKey) : Bool := k.category.isKey && k.name.isKey && Value.areKeys k.entities

def checked (k : FactKey) : Except Fault FactKey :=
  if k.storable then .ok k else .error .illTyped

def entitiesOf : Value → Except Fault (List Value)
  | .null => .ok []
  | .str s => .ok [.str s]
  | .num (.bool b) => .ok [.bool b]
  | .num (.int n) => .ok [.int n]
  | v => v.elements

def of (category name entities : Value) : Except Fault FactKey := do
  return { category, name, entities := ← entitiesOf entities }

def entityTexts (k : FactKey) : List String := k.entities.map Value.text

def text (k : FactKey) : Except Fault String := do
  let entities ← k.entities.mapM Value.spell
  return (← k.category.spell) ++ ":" ++ (← k.name.spell) ++ "(" ++ ", ".intercalate entities ++ ")"

def before (a b : FactKey) : Except Fault Bool :=
  if a.category.alike b.category then
    if a.name.alike b.name then .ok (decide (a.entityTexts < b.entityTexts))
    else a.name.lt b.name
  else a.category.lt b.category

def isBefore (a b : FactKey) : Bool :=
  match a.before b with
  | .ok r => r
  | .error _ => false

end FactKey

structure State where
  facts : Table FactKey Value
  /-- What a fact of a given name reads when it is not stored. -/
  defaults : Table Value Value
  acceptsTuples : Bool

namespace State

def empty : State := { facts := [], defaults := [], acceptsTuples := false }

def size (s : State) : Nat := s.facts.length

/-- Plain values are null, truth values, integers, binary64 numbers and texts. -/
def accepts (tuples : Bool) : Value → Bool
  | .null => true
  | .num (.ratio _) => false
  | .num _ => true
  | .str _ => true
  | .tuple _ => tuples
  | _ => false

/-- The fault of a value that is not accepted, which is shown if it can be. -/
def refusal (v : Value) : Fault := if v.isWritable then .factValue v else .malformed

def checkValue (tuples : Bool) (v : Value) : Except Fault Unit :=
  if accepts tuples v then .ok () else .error (refusal v)

def read (s : State) (k : FactKey) : Value :=
  match s.facts.find? FactKey.same k with
  | some v => v
  | none => (s.defaults.find? Value.alike k.name).getD .null

def get (s : State) (category name : Value) (entities : List Value) : Except Fault Value := do
  return s.read (← FactKey.checked { category, name, entities })

def has (s : State) (category name : Value) (entities : List Value) : Except Fault Bool := do
  return s.facts.contains FactKey.same (← FactKey.checked { category, name, entities })

def write (s : State) (k : FactKey) (v : Value) : State :=
  { s with facts := s.facts.insert FactKey.same k v }

def set (s : State) (category name : Value) (entities : List Value) (v : Value) :
    Except Fault State := do
  checkValue s.acceptsTuples v
  return s.write (← FactKey.checked { category, name, entities }) v

def remove (s : State) (category name : Value) (entities : List Value) : Except Fault State := do
  let k ← FactKey.checked { category, name, entities }
  return { s with facts := s.facts.erase FactKey.same k }

def update (s : State) (changes : List (FactKey × Value)) : Except Fault State := do
  let keyed ← changes.mapM fun c => do return (← c.1.checked, c.2)
  let table : Table FactKey Value := Table.insertAll FactKey.same keyed []
  for c in table do
    checkValue s.acceptsTuples c.2
  return { s with facts := s.facts.insertAll FactKey.same table }

def factParts (fact : Value) : Except Fault (Value × Value × Value × Value) := do
  match ← fact.elements with
  | [name, entities, v] => return (defaultCategory, name, entities, v)
  | [category, name, entities, v] => return (category, name, entities, v)
  | _ => throw (.factShape fact)

def addFact (tuples : Bool) (table : Table FactKey Value) (fact : Value) :
    Except Fault (Table FactKey Value) := do
  let (category, name, entities, v) ← factParts fact
  checkValue tuples v
  let k ← FactKey.of category name entities
  return table.insert FactKey.same (← k.checked) v

def defaultsOf (v : Value) : Except Fault (Table Value Value) :=
  if v.truthy then
    match v with
    | .dict kvs => .ok kvs
    | _ => do
      let pairs ← (← v.elements).mapM fun p => do
        match ← p.elements with
        | [k, x] => if k.isKey then pure (k, x) else throw .illTyped
        | _ => throw .malformed
      return Table.insertAll Value.alike pairs []
  else .ok []

def ofFacts (tuples : Bool) (facts : List Value) (defaults : Value) : Except Fault State := do
  let table ← facts.foldlM (addFact tuples) []
  return { facts := table, defaults := ← defaultsOf defaults, acceptsTuples := tuples }

def orderable (s : State) : Bool :=
  s.facts.all fun a => s.facts.all fun b =>
    match a.1.before b.1 with
    | .ok _ => true
    | .error _ => false

def isWritable (s : State) : Bool := s.facts.all fun e => Value.areWritable e.1.entities

def enumerate (s : State) : Except Fault (List (FactKey × Value)) :=
  if s.isWritable then
    if s.orderable then .ok (stableSort (fun a b => a.1.isBefore b.1) s.facts)
    else .error .illTyped
  else .error .malformed

def entitiesWhere (s : State) (category name v : Value) : Except Fault (List (List Value)) := do
  let matching := (← s.enumerate).filter fun e =>
    e.1.category.eq category && e.1.name.eq name && e.2.eq v
  return matching.map fun e => e.1.entities

def nest (category name entities v : Value) (out : Table Value Value) : Table Value Value :=
  let names := match out.find? Value.alike category with
    | some (.dict kvs) => kvs
    | _ => []
  let leaves := match Table.find? Value.alike name names with
    | some (.dict kvs) => kvs
    | _ => []
  let leaves := Table.insert Value.alike entities v leaves
  out.insert Value.alike category (.dict (Table.insert Value.alike name (.dict leaves) names))

/-- Facts as nested mappings from category, name and comma-joined entities to values. -/
def toValue (s : State) : Except Fault Value := do
  let out := (← s.enumerate).foldl
    (fun out e => nest e.1.category e.1.name (.str (",".intercalate e.1.entityTexts)) e.2 out) []
  return .dict out

def sameFacts (a b : State) : Bool := a.facts.length == b.facts.length && a.facts.all fun e =>
  match b.facts.find? FactKey.same e.1 with
  | some v => e.2.alike v
  | none => false

def sameFactDigest (x y : FactKey × Value) : Bool :=
  x.1.category.sameDigest y.1.category && x.1.name.sameDigest y.1.name
    && Value.sameDigests x.1.entities y.1.entities && x.2.sameDigest y.2

/-- Whether the facts of two states have the same digest, for states whose values could be keys
themselves. Facts of one digest cancel in pairs. -/
def digestsAgree (a b : State) : Except Fault Bool :=
  let both := a.facts ++ b.facts
  if both.all fun e => e.2.isKey then
    .ok (a.size == b.size && both.all fun e => both.countP (sameFactDigest e) % 2 == 0)
  else .error .illTyped

def same (a b : State) : Bool :=
  a.sameFacts b && (Value.dict a.defaults).eq (.dict b.defaults)

def text (s : State) : String := "State(" ++ toString s.size ++ " facts)"

end State

end Chronoplan
