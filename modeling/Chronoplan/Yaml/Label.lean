import Chronoplan.Number.Decimal
import Chronoplan.Yaml.Text

/-!
# Anchors, tags and directives of YAML

The short texts that begin with an indicator: the name of an anchor or alias, a tag with its
optional handle, and the directives before a document.
-/

set_option autoImplicit false

namespace Chronoplan

namespace Yaml

def anchorName (c : Cursor) : Reading :=
  let (name, c) := c.next.takeWhile isWordChar
  if name.isEmpty then .error .notYaml
  else if isGap c.front || "?:,]\x7d%@\x60".contains c.front then .ok (name, c)
  else .error .notYaml

def isTagChar (x : Char) : Bool :=
  isWordChar x || ";/?:@&=+$,.!~*\x27()[]%".contains x

def percentBytes : Nat → List UInt8 → Cursor → Except Fault (List UInt8 × Cursor)
  | 0, bytes, c => .ok (bytes, c)
  | n + 1, bytes, c =>
    if c.front == '%' then do
      let digits := c.next.rest.take 2
      if digits.length < 2 then throw .notYaml
      let code ← orFault .notYaml (hexValue? digits)
      percentBytes n (bytes ++ [UInt8.ofNat code]) (c.skip 3)
    else .ok (bytes, c)

def tagChars : Nat → String → Cursor → Reading
  | 0, s, c => .ok (s, c)
  | n + 1, s, c =>
    if c.front == '%' then do
      let (bytes, c) ← percentBytes (c.rest.length + 1) [] c
      let t ← orFault .notYaml (String.fromUTF8? ⟨bytes.toArray⟩)
      tagChars n (s ++ t) c
    else if isTagChar c.front then tagChars n (s.push c.front) c.next
    else .ok (s, c)

def tagSuffix (c : Cursor) : Reading :=
  if isTagChar c.front then tagChars (c.rest.length + 1) "" c else .error .notYaml

/-- A handle with its marks; before a space a single mark is one too. -/
def tagHandle (c : Cursor) : Reading :=
  if c.front != '!' then .error .notYaml
  else if c.peek 1 == ' ' then .ok ("!", c.next)
  else
    let (name, c) := c.next.takeWhile isWordChar
    if c.front == '!' then .ok ("!" ++ name ++ "!", c.next) else .error .notYaml

/-- A tag as it is written: the handle is missing where the suffix is already complete. -/
structure Tag where
  handle : Option String
  suffix : String
deriving DecidableEq

def tagWord (c : Cursor) : Except Fault (Tag × Cursor) :=
  let second := c.peek 1
  if second == '<' then do
    let (suffix, c) ← tagSuffix (c.skip 2)
    if c.front != '>' then throw .notYaml
    return ({ handle := none, suffix }, c.next)
  else if isGap second then .ok ({ handle := none, suffix := "!" }, c.next)
  else do
    let word := c.next.rest.takeWhile fun x => !endsWord x
    let (handle, c) ← if word.contains '!' then tagHandle c else pure ("!", c.next)
    let (suffix, c) ← tagSuffix c
    return ({ handle := some handle, suffix }, c)

def tag (c : Cursor) : Except Fault (Tag × Cursor) := do
  let (t, c) ← tagWord c
  if endsWord c.front then return (t, c) else throw .notYaml

inductive Directive
  | version (major : Nat)
  | handle (name start : String)
  | other
deriving DecidableEq

def versionNumber (c : Cursor) : Except Fault (Nat × Cursor) :=
  let (digits, c) := c.takeWhile Char.isDigit
  if digits.isEmpty then .error .notYaml
  else .ok (ofDigits 10 (takeDigits digits.toList).1, c)

def versionDirective (c : Cursor) : Except Fault (Directive × Cursor) := do
  let (major, c) ← versionNumber c.skipSpaces
  if c.front != '.' then throw .notYaml
  let (_, c) ← versionNumber c.next
  if endsWord c.front then return (.version major, c) else throw .notYaml

def handleDirective (c : Cursor) : Except Fault (Directive × Cursor) := do
  let (name, c) ← tagHandle c.skipSpaces
  if c.front != ' ' then throw .notYaml
  let (start, c) ← tagSuffix c.skipSpaces
  if endsWord c.front then return (.handle name start, c) else throw .notYaml

def directive (c : Cursor) : Except Fault (Directive × Cursor) := do
  let (name, c) := c.next.takeWhile isWordChar
  if name.isEmpty || !endsWord c.front then throw .notYaml
  let (d, c) ←
    match name with
    | "YAML" => versionDirective c
    | "TAG" => handleDirective c
    | _ => pure (.other, c.skipWhile fun x => !endsLine x)
  return (d, ← c.skipRestOfLine)

end Yaml

end Chronoplan
