import Chronoplan.Yaml.Layout
import Chronoplan.Yaml.Pen

/-!
# YAML text of a value

Mappings and sequences are written as indented blocks, empty ones in brackets, and a sequence that
is the value of a key is not indented more than the key. What has several references is written
once behind an anchor, and elsewhere as an alias. Nothing is written when an integer has too many
digits.
-/

set_option autoImplicit false

namespace Chronoplan

namespace Yaml

namespace Layout

def tagText (tag : String) : String :=
  let start := (coreTag "").toList
  if start.isPrefixOf tag.toList then "!!" ++ String.ofList (tag.toList.drop start.length)
  else "!<" ++ tag ++ ">"

def implied (tag text : String) : Bool := NodeType.ofTag tag == .scalar (.ofText text)

abbrev Anchors := List Nat

def anchorName? (anchors : Anchors) (link : Nat) : Option String :=
  let place := anchors.idxOf link
  if place < anchors.length then some ("id" ++ padLeft 3 (place + 1)) else none

def anchorLength (anchors : Anchors) (link : Nat) : Nat :=
  ((anchorName? anchors link).getD "").length

def isSimpleKey (anchors : Anchors) : Layout → Bool
  | .scalar link tag text =>
    let cs := text.toList
    !cs.isEmpty && !isMultiline cs
      && anchorLength anchors link + (tagText tag).length + cs.length < 128
  | .block _ _ => false
  | .sequence link tag items =>
    items.isEmpty && anchorLength anchors link + (tagText tag).length < 128
  | .mapping link tag entries =>
    entries.isEmpty && anchorLength anchors link + (tagText tag).length < 128
  | .reference _ => true

def writeAnchor (anchors : Anchors) (link : Nat) (p : Pen) : Pen :=
  match anchorName? anchors link with
  | some name => p.mark ("&" ++ name) false
  | none => p

def writeScalar (simpleKey : Bool) (indent : Nat) (tag text : String) (p : Pen) : Pen :=
  let cs := text.toList
  let style := Style.of (implied tag text) simpleKey cs
  let silent := if style == .plain then implied tag text else tag == strTag
  let p := if silent then p else p.mark (tagText tag) false
  p.scalar style (!simpleKey) indent cs

def writeTag (default tag : String) (p : Pen) : Pen :=
  if tag == default then p else p.mark (tagText tag) false

/-- Where a node is written: the indentation of the collection around it, whether that is a
mapping, and whether the node is a key on one line with its value. -/
structure Setting where
  indent : Nat
  inMapping : Bool
  simpleKey : Bool

mutual

def write (anchors : Anchors) (s : Setting) : Layout → Pen → Pen
  | .scalar link tag text, p =>
    writeScalar s.simpleKey (s.indent + 2) tag text (writeAnchor anchors link p)
  | .block tag lines, p => (p.mark (tagText tag) false).literal (s.indent + 2) lines
  | .sequence link tag items, p =>
    let p := writeTag seqTag tag (writeAnchor anchors link p)
    let indent := if s.inMapping && !p.fresh then s.indent else s.indent + 2
    if items.isEmpty then p.mark "[]" false else writeItems anchors indent items p
  | .mapping link tag entries, p =>
    let p := writeTag mapTag tag (writeAnchor anchors link p)
    if entries.isEmpty then p.mark "\x7b\x7d" false
    else writeEntries anchors (s.indent + 2) entries p
  | .reference link, p => p.mark ("*" ++ (anchorName? anchors link).getD "") false

def writeItems (anchors : Anchors) (indent : Nat) : List Layout → Pen → Pen
  | [], p => p
  | n :: r, p =>
    let p := (p.indentTo indent).openMark "-"
    let inner : Setting := { indent, inMapping := false, simpleKey := false }
    writeItems anchors indent r (write anchors inner n p)

def writeEntries (anchors : Anchors) (indent : Nat) : List (Layout × Layout) → Pen → Pen
  | [], p => p
  | (k, v) :: r, p =>
    let p := p.indentTo indent
    let inner : Setting := { indent, inMapping := true, simpleKey := false }
    let p :=
      if k.isSimpleKey anchors then
        (write anchors { inner with simpleKey := true } k p).mark ":" true
      else
        let p := write anchors inner k (p.openMark "?")
        (p.indentTo indent).openMark ":"
    writeEntries anchors indent r (write anchors inner v p)

end

end Layout

def mappingText (entries : Linked.Entries) : String :=
  let (l, anchors) := (Layout.ofLinked (.dict 0 entries)).settle
  match l with
  | .mapping _ _ parts => ((Layout.writeEntries anchors 0 parts Pen.start).indentTo 0).text
  | _ => ""

def writeMapping (entries : Linked.Entries) : Except Fault String :=
  if (Linked.toValue (.dict 0 entries)).isWritable then .ok (mappingText entries)
  else .error .malformed

end Yaml

end Chronoplan
