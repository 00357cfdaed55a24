import Chronoplan.Table
import Chronoplan.Yaml.Scalar
import Chronoplan.Yaml.Token

/-!
# Nodes of YAML

A document is a graph of scalars, sequences and mappings. Parsing descends along the tokens and
numbers the nodes as it meets them; an alias leads to the node that carries its anchor, which may
still be open. A text holds at most one document.
-/

set_option autoImplicit false

namespace Chronoplan

namespace Yaml

inductive NodeType
  | scalar (t : ScalarType)
  | seq
  | map
  | set
  | pairs
  | unknown
deriving DecidableEq

inductive Content
  | text (s : String)
  | items (ns : List Nat)
  | entries (es : List (Nat × Nat))

structure Node where
  type : NodeType
  content : Content

instance : Inhabited Node := ⟨{ type := .unknown, content := .text "" }⟩

abbrev Graph := Array Node

namespace NodeType

def coreTag (name : String) : String := "tag:yaml.org,2002:" ++ name

def tags : List (String × NodeType) :=
  [("bool", .scalar .bool), ("float", .scalar .float), ("int", .scalar .int),
    ("merge", .scalar .merge), ("null", .scalar .null), ("timestamp", .scalar .timestamp),
    ("value", .scalar .value), ("str", .scalar .str), ("binary", .scalar .binary), ("seq", .seq),
    ("map", .map), ("set", .set), ("omap", .pairs), ("pairs", .pairs)]

def ofTag (tag : String) : NodeType :=
  match tags.find? fun e => coreTag e.1 == tag with
  | some e => e.2
  | none => .unknown

def ofScalar (plain : Bool) (text : String) : Option String → NodeType
  | none => if plain then .scalar (.ofText text) else .scalar .str
  | some t => if t == "!" then .scalar (.ofText text) else ofTag t

def ofGroup (default : NodeType) : Option String → NodeType
  | none => default
  | some t => if t == "!" then default else ofTag t

end NodeType

namespace Node

abbrev Handles := Table String String

/-- The tokens that are left, the nodes so far, the nodes of the anchors, and the number of
collections that are open. -/
structure Supply where
  stream : TokenStream
  nodes : Graph
  anchors : Table String Nat
  depth : Nat

def deepest : Nat := 480

abbrev Parse := StateT Supply (Except Fault)

def refuse {α : Type} : Parse α := throw .notYaml

def peek? : Parse (Option Token) := do
  let stream := (← get).stream
  match stream.tokens.head?, stream.fault with
  | none, some f => throw f
  | t, _ => return t

def advance : Parse Unit :=
  modify fun s => { s with stream := { s.stream with tokens := s.stream.tokens.tail } }

def accept (t : Token) : Parse Bool := do
  if (← peek?) == some t then
    advance
    return true
  else return false

def isAt (ts : List Token) : Parse Bool := do
  match ← peek? with
  | some t => return ts.contains t
  | none => return false

def expect (t : Token) : Parse Unit := do
  unless ← accept t do refuse

def takeAnchor : Parse (Option String) := do
  match ← peek? with
  | some (.anchor name) =>
    advance
    return some name
  | _ => return none

def fullTag (handles : Handles) (t : Tag) : Parse String :=
  match t.handle with
  | none => return t.suffix
  | some h =>
    match handles.find? (· == ·) h with
    | some start => return start ++ t.suffix
    | none => refuse

def takeTag : Parse (Option Tag) := do
  match ← peek? with
  | some (.tag t) =>
    advance
    return some t
  | _ => return none

def properties (handles : Handles) : Parse (Option String × Option String) := do
  match ← takeAnchor with
  | some a => return (some a, ← (← takeTag).mapM (fullTag handles))
  | none =>
    match ← takeTag with
    | some t =>
      let a ← takeAnchor
      return (a, some (← fullTag handles t))
    | none => return (none, none)

def add (anchor : Option String) (type : NodeType) (content : Content) : Parse Nat :=
  modifyGet fun s =>
    (s.nodes.size, {
      s with
      nodes := s.nodes.push { type, content }
      anchors := match anchor with
        | some name => s.anchors.insert (· == ·) name s.nodes.size
        | none => s.anchors })

def addEmpty : Parse Nat := add none (.scalar .null) (.text "")

def addGroup {α : Type} (anchor : Option String) (type : NodeType) (content : List α → Content)
    (parts : Parse (List α)) : Parse Nat := do
  let id ← add anchor type (content [])
  let depth := (← get).depth
  if depth = deepest then throw .endless
  modify fun s => { s with depth := depth + 1 }
  let ps ← parts
  modify fun s =>
    { s with nodes := s.nodes.setIfInBounds id { type, content := content ps }, depth }
  return id

def checkAnchor : Option String → Parse Unit
  | none => return ()
  | some name => do if (← get).anchors.contains (· == ·) name then refuse

def aliased (name : String) : Parse Nat := do
  match (← get).anchors.find? (· == ·) name with
  | some id => return id
  | none => refuse

inductive Place
  | flow
  | block
  /-- Behind a key, where a sequence needs no indentation of its own. -/
  | mappingPart

mutual

def node (handles : Handles) : Nat → Place → Parse Nat
  | 0, _ => refuse
  | n + 1, place => do
    match ← peek? with
    | some (.alias name) =>
      advance
      aliased name
    | _ =>
      let (anchor, tag) ← properties handles
      let next ← peek?
      checkAnchor anchor
      nodeBody handles n place next anchor tag

/-- A node behind its anchor and tag, of which the first token is given. It may be empty only
where an anchor or a tag is written. -/
def nodeBody (handles : Handles) :
    Nat → Place → Option Token → Option String → Option String → Parse Nat
  | 0, _, _, _, _ => refuse
  | n + 1, place, next, anchor, tag => do
    let missing : Parse Nat :=
      if anchor.isSome || tag.isSome then add anchor (.ofScalar true "" tag) (.text "") else refuse
    let sequence (parts : Parse (List Nat)) : Parse Nat :=
      addGroup anchor (.ofGroup .seq tag) .items parts
    let mapping (parts : Parse (List (Nat × Nat))) : Parse Nat :=
      addGroup anchor (.ofGroup .map tag) .entries parts
    match next, place with
    | some (.scalar text plain), _ =>
      advance
      add anchor (.ofScalar plain text tag) (.text text)
    | some .flowSequenceStart, _ =>
      advance
      sequence (flowItems handles n true)
    | some .flowMappingStart, _ =>
      advance
      mapping (flowEntries handles n true)
    | some .blockEntry, .mappingPart => sequence (bareItems handles n)
    | some .blockSequenceStart, .flow => missing
    | some .blockSequenceStart, _ =>
      advance
      sequence (blockItems handles n)
    | some .blockMappingStart, .flow => missing
    | some .blockMappingStart, _ =>
      advance
      mapping (blockEntries handles n)
    | _, _ => missing

def nodeUnless (handles : Handles) : Nat → Place → List Token → Parse Nat
  | 0, _, _ => refuse
  | n + 1, place, closing => do
    if ← isAt closing then addEmpty else node handles n place

def valueUnless (handles : Handles) : Nat → Place → List Token → Parse Nat
  | 0, _, _ => refuse
  | n + 1, place, closing => do
    if ← accept .value then nodeUnless handles n place closing else addEmpty

def blockItems (handles : Handles) : Nat → Parse (List Nat)
  | 0 => refuse
  | n + 1 => do
    if ← accept .blockEntry then
      let item ← nodeUnless handles n .block [.blockEntry, .blockEnd]
      return item :: (← blockItems handles n)
    else
      expect .blockEnd
      return []

/-- A block sequence that is not indented more than the mapping around it. -/
def bareItems (handles : Handles) : Nat → Parse (List Nat)
  | 0 => refuse
  | n + 1 => do
    if ← accept .blockEntry then
      let item ← nodeUnless handles n .block [.blockEntry, .key, .value, .blockEnd]
      return item :: (← bareItems handles n)
    else return []

def blockEntries (handles : Handles) : Nat → Parse (List (Nat × Nat))
  | 0 => refuse
  | n + 1 => do
    let closing : List Token := [.key, .value, .blockEnd]
    if ← accept .key then
      let k ← nodeUnless handles n .mappingPart closing
      let v ← valueUnless handles n .mappingPart closing
      return (k, v) :: (← blockEntries handles n)
    else
      expect .blockEnd
      return []

def flowEntry (handles : Handles) : Nat → Token → Parse (Nat × Nat)
  | 0, _ => refuse
  | n + 1, ending => do
    let k ← nodeUnless handles n .flow [.value, .flowEntry, ending]
    return (k, ← valueUnless handles n .flow [.flowEntry, ending])

/-- The items of a flow sequence; one with a key indicator is a mapping of a single entry. -/
def flowItems (handles : Handles) : Nat → Bool → Parse (List Nat)
  | 0, _ => refuse
  | n + 1, isFirst => do
    if ← accept .flowSequenceEnd then return []
    unless isFirst do expect .flowEntry
    if ← accept .flowSequenceEnd then return []
    let item ←
      if ← accept .key then
        addGroup none .map .entries do return [← flowEntry handles n .flowSequenceEnd]
      else node handles n .flow
    return item :: (← flowItems handles n false)

def flowEntries (handles : Handles) : Nat → Bool → Parse (List (Nat × Nat))
  | 0, _ => refuse
  | n + 1, isFirst => do
    if ← accept .flowMappingEnd then return []
    unless isFirst do expect .flowEntry
    if ← accept .flowMappingEnd then return []
    let entry ←
      if ← accept .key then flowEntry handles n .flowMappingEnd
      else pure (← node handles n .flow, ← addEmpty)
    return entry :: (← flowEntries handles n false)

end

/-! ## Documents -/

structure Prologue where
  hasVersion : Bool
  handles : Handles

def directives : Nat → Prologue → Parse Prologue
  | 0, _ => refuse
  | n + 1, p => do
    match ← peek? with
    | some (.directive d) =>
      advance
      match d with
      | .version major =>
        if p.hasVersion || major != 1 then refuse
        directives n { p with hasVersion := true }
      | .handle name start =>
        if p.handles.contains (· == ·) name then refuse
        directives n { p with handles := p.handles.insert (· == ·) name start }
      | .other => directives n p
    | _ => return p

def defaultHandles : Handles := [("!", "!"), ("!!", NodeType.coreTag "")]

/-- The handles of a document; its directives win over the defaults. -/
def Prologue.allHandles (p : Prologue) : Handles := p.handles ++ defaultHandles

def root (handles : Handles) (fuel : Nat) : Parse Nat := do
  match ← peek? with
  | none => addEmpty
  | some (.directive _) => addEmpty
  | some .documentStart => addEmpty
  | some .documentEnd => addEmpty
  | some _ => node handles fuel .block

def finish : Nat → Parse Unit
  | 0 => refuse
  | n + 1 => do
    match ← peek? with
    | none => return ()
    | some .documentEnd =>
      advance
      finish n
    | some (.directive _) =>
      let _ ← directives n { hasVersion := false, handles := [] }
      refuse
    | some _ => refuse

def document (fuel : Nat) : Parse (Option Nat) := do
  match ← peek? with
  | none => return none
  | some (.directive _) =>
    let p ← directives fuel { hasVersion := false, handles := [] }
    expect .documentStart
    return some (← root p.allHandles fuel)
  | some .documentStart =>
    advance
    return some (← root defaultHandles fuel)
  | some _ => return some (← node defaultHandles fuel .block)

def ofText (s : String) : Except Fault (Graph × Option Nat) := do
  let stream := TokenStream.ofText s
  let fuel := 5 * stream.tokens.length + 5
  let parse : Parse (Option Nat) := do
    let r ← document fuel
    finish fuel
    return r
  let (r, supply) ← parse.run { stream, nodes := #[], anchors := [], depth := 0 }
  return (supply.nodes, r)

end Node

end Yaml

end Chronoplan
