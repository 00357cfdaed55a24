import Chronoplan.Value.Linked
import Chronoplan.Yaml.Merge

/-!
# Values of YAML documents

Every node has one object, which all aliases share. Objects of collections begin empty and are
filled in the order in which they began, so that a collection can be part of itself; an entry that
is written later replaces an earlier one in its place. The finished objects are read off as a
linked value.
-/

set_option autoImplicit false

namespace Chronoplan

namespace Yaml

inductive Object
  | leaf (v : Value)
  | list (items : List Nat)
  | pairs (items : List (Nat × Nat))
  /-- The values of the keys, each with the nodes of the key and of what belongs to it. -/
  | dict (entries : Table Value (Nat × Nat))
  | set (members : List Value)

/-- The objects by node, and the collections that are still to be filled, the last one first. -/
structure Construction where
  graph : Graph
  objects : Array (Option Object)
  waiting : List Nat

abbrev Build := StateT Construction (Except Fault)

namespace Construction

def refuse {α : Type} : Build α := throw .notYaml

def textOf (g : Graph) : Nat → Nat → Except Fault String
  | 0, _ => .error .endless
  | fuel + 1, n =>
    match (g.get n).content with
    | .text s => .ok s
    | .items _ => .error .notYaml
    | .entries es =>
      match es.find? fun e => g.typeOf e.1 == .scalar .value with
      | some e => textOf g fuel e.2
      | none => .error .notYaml

def put (n : Nat) (o : Object) : Build Unit :=
  modify fun c => { c with objects := c.objects.setIfInBounds n (some o) }

def postpone (n : Nat) (o : Object) : Build Unit := do
  put n o
  modify fun c => { c with waiting := n :: c.waiting }

def scalarOf (g : Graph) (n : Nat) (type : ScalarType) : Except Fault Value := do
  let s ← textOf g (g.size + 1) n
  match type, (g.get n).content with
  | .timestamp, .entries _ => throw .illTyped
  | _, _ => scalarValue type s

def begin (n : Nat) : Build Unit := do
  let c ← get
  if (c.objects.getD n none).isSome then return
  match c.graph.typeOf n with
  | .scalar type => put n (.leaf (← scalarOf c.graph n type))
  | .seq => postpone n (.list [])
  | .map => postpone n (.dict [])
  | .set => postpone n (.set [])
  | .pairs => postpone n (.pairs [])
  | .unknown => refuse

def keyOf (n : Nat) : Build Value := do
  begin n
  match (← get).objects.getD n none with
  | some (.leaf v) => if v.isKey then return v else refuse
  | _ => refuse

def fillEntries : List (Nat × Nat) → Table Value (Nat × Nat) → Build (Table Value (Nat × Nat))
  | [], t => return t
  | (k, v) :: rest, t => do
    let key ← keyOf k
    begin v
    let k := ((t.find? Value.alike key).map Prod.fst).getD k
    fillEntries rest (t.insert Value.alike key (k, v))

def mappingOf (n : Nat) : Build (Table Value (Nat × Nat)) := do
  let c ← get
  let g ← c.graph.merge (c.graph.size + 1) n
  set { c with graph := g }
  match g.entriesOf? n with
  | some es => fillEntries es []
  | none => refuse

def fillPairs : List Nat → Build (List (Nat × Nat))
  | [] => return []
  | n :: rest => do
    match (← get).graph.entriesOf? n with
    | some [(k, v)] =>
      begin k
      begin v
      return (k, v) :: (← fillPairs rest)
    | _ => refuse

def itemsOf (n : Nat) : Build (List Nat) := do
  match ((← get).graph.get n).content with
  | .items ns => return ns
  | _ => refuse

def fill (n : Nat) : Build Unit := do
  match (← get).graph.typeOf n with
  | .seq =>
    let ns ← itemsOf n
    ns.forM begin
    put n (.list ns)
  | .map => put n (.dict (← mappingOf n))
  | .set => put n (.set (← mappingOf n).keys)
  | .pairs => put n (.pairs (← fillPairs (← itemsOf n)))
  | _ => return

def fillAll : Nat → Build Unit
  | 0 => return
  | fuel + 1 => do
    let round := (← get).waiting.reverse
    if round.isEmpty then return
    modify fun c => { c with waiting := [] }
    round.forM fill
    fillAll fuel

def run (g : Graph) (root : Nat) : Except Fault (Array (Option Object)) := do
  let build : Build Unit := do
    begin root
    fillAll (g.size + 1)
  let ((), c) ← build.run { graph := g, objects := Array.replicate g.size none, waiting := [] }
  return c.objects

end Construction

/-! ## Reading off -/

namespace Object

def parts : Object → List Nat
  | .list ns => ns
  | .pairs es => es.flatMap fun e => [e.1, e.2]
  | .dict es => es.flatMap fun e => [e.2.1, e.2.2]
  | _ => []

end Object

def references (objects : Array (Option Object)) : Array Nat :=
  objects.foldl (fun counts o =>
    (o.elim [] Object.parts).foldl (fun counts n => counts.modify n (· + 1)) counts)
    (Array.replicate objects.size 0)

def markBelow (objects : Array (Option Object)) : Nat → List Nat → Array Bool → Array Bool
  | 0, _, marked => marked
  | _, [], marked => marked
  | fuel + 1, n :: rest, marked =>
    if marked.getD n true then markBelow objects fuel rest marked
    else
      let parts := ((objects.getD n none).elim [] Object.parts)
      markBelow objects fuel (parts ++ rest) (marked.setIfInBounds n true)

/-- The nodes that can be reached in several ways, because they or nodes around them have several
references. The root has one of its own. -/
def sharedNodes (objects : Array (Option Object)) (root : Nat) : Array Bool :=
  let counts := (references objects).modify root (· + 1)
  let starts := (List.range objects.size).filter fun n => decide (2 ≤ counts.getD n 0)
  markBelow objects (counts.foldl (· + ·) 0 + starts.length + 1) starts
    (Array.replicate objects.size false)

structure Readout where
  objects : Array (Option Object)
  isShared : Nat → Bool
  known : Array (Option Linked)

namespace Readout

def link (r : Readout) (n : Nat) : Nat := if r.isShared n then n + 1 else 0

def underKey (r : Readout) (n : Nat) (v : Linked) : Linked :=
  match r.link n, r.objects.getD n none with
  | 0, _ => v
  | l, some (.leaf (.date _)) => .keyed l v
  | l, some (.leaf (.moment _)) => .keyed l v
  | _, _ => v

def read (r : Readout) : Nat → List Nat → Nat → Linked
  | 0, _, _ => .leaf 0 .null
  | fuel + 1, around, n =>
    match r.known.getD n none with
    | some v => v
    | none =>
      let sub (m : Nat) : Linked := r.read fuel (n :: around) m
      match r.objects.getD n none with
      | some (.leaf (.date d)) => .leaf (r.link n) (.date d)
      | some (.leaf (.moment t)) => .leaf (r.link n) (.moment t)
      | some (.leaf v) => .leaf 0 v
      | some (.set vs) => .set (r.link n) vs
      | some (.list ns) =>
        if around.contains n then .again (r.link n) false else .list (r.link n) (ns.map sub)
      | some (.pairs es) =>
        if around.contains n then .again (r.link n) false
        else .list (r.link n) (es.map fun e => .tuple [sub e.1, sub e.2])
      | some (.dict es) =>
        if around.contains n then .again (r.link n) true
        else .dict (r.link n) (es.map fun e => (e.1, r.underKey e.2.1 (sub e.2.2)))
      | none => .leaf 0 .null

def isReady (r : Readout) (n : Nat) : Bool :=
  match r.objects.getD n none with
  | some o => o.parts.all fun m => (r.known.getD m none).isSome
  | none => false

def know : Nat → Readout → Readout
  | 0, r => r
  | n + 1, r =>
    know n (if r.isReady n then
      { r with known := r.known.setIfInBounds n (some (r.read 2 [] n)) } else r)

def knownCount (r : Readout) : Nat := r.known.foldl (fun k v => if v.isSome then k + 1 else k) 0

/-- Adds values as long as some follow, which is one round for each alias inside an aliased
node. -/
def knowAll : Nat → Readout → Readout
  | 0, r => r
  | rounds + 1, r =>
    let next := r.know r.objects.size
    if next.knownCount = r.knownCount then next else knowAll rounds next

end Readout

def read (s : String) : Except Fault Linked := do
  match ← Node.ofText s with
  | (_, none) => return .leaf 0 .null
  | (g, some root) =>
    let objects ← Construction.run g root
    let shared := sharedNodes objects root
    let r : Readout := {
      objects
      isShared := fun n => shared.getD n false
      known := Array.replicate objects.size none }
    return (r.knowAll objects.size).read (objects.size + 1) [] root

end Yaml

end Chronoplan
