import Chronoplan.Yaml.Node

/-!
# Merge keys

A merge key brings the entries of the mappings that it names in front of the mapping's own ones.
The mapping is changed for good: its merge keys are gone, and its value marks are strings.
-/

set_option autoImplicit false

namespace Chronoplan

namespace Yaml

namespace Graph

def get (g : Graph) (n : Nat) : Node := g.getD n default

def typeOf (g : Graph) (n : Nat) : NodeType := (g.get n).type

def setType (g : Graph) (n : Nat) (type : NodeType) : Graph :=
  g.setIfInBounds n { g.get n with type }

def entriesOf? (g : Graph) (n : Nat) : Option (List (Nat × Nat)) :=
  match (g.get n).content with
  | .entries es => some es
  | _ => none

def setEntries (g : Graph) (n : Nat) (es : List (Nat × Nat)) : Graph :=
  g.setIfInBounds n { g.get n with content := .entries es }

def mergedEntries (merge : Nat → Graph → Except Fault Graph) (n : Nat) (g : Graph) :
    Except Fault (List (Nat × Nat) × Graph) := do
  if (g.entriesOf? n).isNone then throw .notYaml
  let g ← merge n g
  return (← orFault .notYaml (g.entriesOf? n), g)

def mergedAll (merge : Nat → Graph → Except Fault Graph) :
    List Nat → Graph → Except Fault (List (Nat × Nat) × Graph)
  | [], g => .ok ([], g)
  | n :: ns, g => do
    let (es, g) ← mergedEntries merge n g
    let (later, g) ← mergedAll merge ns g
    return (later ++ es, g)

def inheritedEntries (merge : Nat → Graph → Except Fault Graph) (n : Nat) (g : Graph) :
    Except Fault (List (Nat × Nat) × Graph) :=
  match (g.get n).content with
  | .items ns => mergedAll merge ns g
  | _ => mergedEntries merge n g

/-- Treats the entries of a mapping in order. `inherited` has been brought in and `own` stays; a
merge key is gone before what it names is looked at, which may be the mapping itself. -/
def mergeEntries (merge : Nat → Graph → Except Fault Graph) (n : Nat) :
    (inherited own rest : List (Nat × Nat)) → Graph → Except Fault Graph
  | inherited, own, [], g =>
    .ok (if inherited.isEmpty then g else g.setEntries n (inherited ++ own))
  | inherited, own, (k, v) :: rest, g =>
    if g.typeOf k = .scalar .merge then do
      let (es, g) ← inheritedEntries merge v (g.setEntries n (own ++ rest))
      mergeEntries merge n (inherited ++ es) own rest g
    else
      let g := if g.typeOf k = .scalar .value then g.setType k (.scalar .str) else g
      mergeEntries merge n inherited (own ++ [(k, v)]) rest g

def merge : Nat → Nat → Graph → Except Fault Graph
  | 0, _, _ => .error .endless
  | fuel + 1, n, g =>
    match g.entriesOf? n with
    | some es => mergeEntries (merge fuel) n [] [] es g
    | none => .ok g

end Graph

end Yaml

end Chronoplan
