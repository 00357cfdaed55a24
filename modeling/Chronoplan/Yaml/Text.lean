import Chronoplan.Number.Decimal
import Chronoplan.Yaml.Cursor

/-!
# Scalar texts of YAML

The text of a plain, a quoted and a block scalar. A single line break inside a plain or quoted
scalar folds into a space, and further ones are kept. Each reader recurses on a bound taken from
the length of the text, which it cannot use up because every round consumes a character.
-/

set_option autoImplicit false

namespace Chronoplan

namespace Yaml

abbrev Reading := Except Fault (String × Cursor)

def folded (first more : String) : String :=
  (if first != "\n" then first else if more.isEmpty then " " else "") ++ more

/-! ## Plain scalars -/

def plainLength (flow : Bool) : List Char → Nat
  | [] => 0
  | x :: r =>
    let next := r.headD endMark
    if isGap x || (x == ':' && (isGap next || (flow && ",[]\x7b\x7d".toList.contains next)))
        || (flow && ",?[]\x7b\x7d".toList.contains x) then 0
    else plainLength flow r + 1

structure PlainGap where
  text : String
  cursor : Cursor
  broke : Bool

def plainBreaks : Nat → String → Cursor → Option (String × Cursor)
  | 0, s, c => some (s, c)
  | n + 1, s, c =>
    if c.front == ' ' then plainBreaks n s c.next
    else if isBreak c.front then
      let (b, c) := c.lineBreak
      if c.atDocumentMark then none else plainBreaks n (s ++ b) c
    else some (s, c)

def plainGap (c : Cursor) : PlainGap :=
  let (spaces, c) := c.takeWhile (· == ' ')
  if isBreak c.front then
    let (first, c) := c.lineBreak
    if c.atDocumentMark then { text := "", cursor := c, broke := true }
    else
      match plainBreaks (c.rest.length + 1) "" c with
      | some (more, c) => { text := folded first more, cursor := c, broke := true }
      | none => { text := "", cursor := c, broke := true }
  else { text := spaces, cursor := c, broke := false }

/-- Words of a plain scalar with the gaps between them. The last part tells whether a simple key
may follow. -/
def plainWords (flow : Bool) (indent : Int) : Nat → String → Cursor → Bool → String × Cursor × Bool
  | 0, text, c, broke => (text, c, broke)
  | n + 1, text, c, broke =>
    if c.front == '#' then (text, c, broke)
    else
      let length := plainLength flow c.rest
      if length = 0 then (text, c, broke)
      else
        let text := text ++ String.ofList (c.rest.take length)
        let gap := plainGap (c.skip length)
        if gap.text.isEmpty || gap.cursor.front == '#' || (!flow && gap.cursor.column < indent) then
          (text, gap.cursor, gap.broke)
        else
          let (more, c, broke') := plainWords flow indent n "" gap.cursor gap.broke
          if more.isEmpty then (text, c, broke') else (text ++ gap.text ++ more, c, broke')

def plainScalar (flow : Bool) (indent : Int) (c : Cursor) : String × Cursor × Bool :=
  plainWords flow indent (c.rest.length + 1) "" c false

/-! ## Quoted scalars -/

def quotedBreaks : Nat → String → Cursor → Reading
  | 0, _, _ => .error .notYaml
  | n + 1, s, c =>
    if c.atDocumentMark then .error .notYaml
    else
      let c := c.skipWhile fun x => x == ' ' || x == '\t'
      if isBreak c.front then
        let (b, c) := c.lineBreak
        quotedBreaks n (s ++ b) c
      else .ok (s, c)

def quotedGap (c : Cursor) : Reading := do
  let (blanks, c) := c.takeWhile fun x => x == ' ' || x == '\t'
  if c.front == endMark then throw .notYaml
  if isBreak c.front then
    let (first, c) := c.lineBreak
    let (more, c) ← quotedBreaks (c.rest.length + 1) "" c
    return (folded first more, c)
  else return (blanks, c)

def escaped? (x : Char) : Option Char :=
  match x with
  | '0' => some endMark
  | 'a' => some (Char.ofNat 7)
  | 'b' => some (Char.ofNat 8)
  | 't' => some '\t'
  | '\t' => some '\t'
  | 'n' => some '\n'
  | 'v' => some (Char.ofNat 11)
  | 'f' => some (Char.ofNat 12)
  | 'r' => some '\r'
  | 'e' => some (Char.ofNat 27)
  | ' ' => some ' '
  | '"' => some '"'
  | '\\' => some '\\'
  | '/' => some '/'
  | 'N' => some nextLine
  | '_' => some (Char.ofNat 160)
  | 'L' => some lineSeparator
  | 'P' => some paragraphSeparator
  | _ => none

def escapeWidth? (x : Char) : Option Nat :=
  match x with
  | 'x' => some 2
  | 'u' => some 4
  | 'U' => some 8
  | _ => none

def hexValue? (cs : List Char) : Option Nat :=
  (cs.mapM fun c => (alphaDigit? c).filter (· < 16)).map (ofDigits 16)

def escapeSequence (c : Cursor) : Reading :=
  match escaped? c.front, escapeWidth? c.front with
  | some x, _ => .ok (String.singleton x, c.next)
  | none, some width => do
    let digits := c.next.rest.take width
    if digits.length < width then throw .notYaml
    let code ← orFault .notYaml (hexValue? digits)
    if code > 2147483647 then throw .tooLarge
    if code > 1114111 then throw .malformed
    return (String.singleton (Char.ofNat code), c.skip (width + 1))
  | none, none =>
    if isBreak c.front then quotedBreaks (c.rest.length + 1) "" c.lineBreak.2
    else .error .notYaml

def quotedRest (double : Bool) : Nat → String → Cursor → Reading
  | 0, _, _ => .error .notYaml
  | n + 1, s, c =>
    let x := c.front
    if x == '"' && double then .ok (s, c.next)
    else if x == '\x27' && !double then
      if c.peek 1 == '\x27' then quotedRest double n (s.push x) (c.skip 2) else .ok (s, c.next)
    else if x == '\\' && double then do
      let (e, c) ← escapeSequence c.next
      quotedRest double n (s ++ e) c
    else if isGap x then do
      let (g, c) ← quotedGap c
      quotedRest double n (s ++ g) c
    else quotedRest double n (s.push x) c.next

def quotedScalar (double : Bool) (c : Cursor) : Reading :=
  quotedRest double (c.rest.length + 1) "" c.next

/-! ## Block scalars -/

inductive Chomping
  | strip
  | clip
  | keep
deriving DecidableEq

structure BlockHeader where
  chomping : Chomping
  indent : Option Nat

def takeChomping (c : Cursor) : Option Chomping × Cursor :=
  if c.front == '+' then (some .keep, c.next)
  else if c.front == '-' then (some .strip, c.next)
  else (none, c)

def takeIndent (c : Cursor) : Except Fault (Option Nat × Cursor) :=
  match digitValue? c.front with
  | some 0 => .error .notYaml
  | some d => .ok (some d, c.next)
  | none => .ok (none, c)

def blockHeader (c : Cursor) : Except Fault (BlockHeader × Cursor) := do
  let (before, c) := takeChomping c
  let (indent, c) ← takeIndent c
  let (after, c) := match before, indent with
    | none, some _ => takeChomping c
    | _, _ => (before, c)
  if !endsWord c.front then throw .notYaml
  return ({ chomping := after.getD .clip, indent }, ← c.skipRestOfLine)

/-- Leading breaks of a block scalar and the deepest column of the blanks among them. -/
def blockLead : Nat → String → Nat → Cursor → String × Nat × Cursor
  | 0, s, deepest, c => (s, deepest, c)
  | n + 1, s, deepest, c =>
    if c.front == ' ' then blockLead n s (max deepest c.next.column) c.next
    else if isBreak c.front then
      let (b, c) := c.lineBreak
      blockLead n (s ++ b) deepest c
    else (s, deepest, c)

def indentTo (indent : Nat) : Nat → Cursor → Cursor
  | 0, c => c
  | n + 1, c => if c.column < indent && c.front == ' ' then indentTo indent n c.next else c

/-- Empty lines of a block scalar, and the indentation of the line after them. -/
def blockBreaks (indent : Nat) : Nat → String → Cursor → String × Cursor
  | 0, s, c => (s, c)
  | n + 1, s, c =>
    let c := indentTo indent (c.rest.length + 1) c
    if isBreak c.front then
      let (b, c) := c.lineBreak
      blockBreaks indent n (s ++ b) c
    else (s, c)

def blockLines (fold : Bool) (indent : Nat) :
    Nat → String → String → Cursor → String × String × String × Cursor
  | 0, s, breaks, c => (s, "", breaks, c)
  | n + 1, s, breaks, c =>
    if c.column == indent && c.front != endMark then
      let blank (x : Char) : Bool := x == ' ' || x == '\t'
      let solid := !blank c.front
      let (line, c) := c.takeWhile fun x => !endsLine x
      let s := s ++ breaks ++ line
      let (b, c) := c.lineBreak
      let (breaks, c) := blockBreaks indent (c.rest.length + 1) "" c
      if c.column == indent && c.front != endMark then
        let joint :=
          if fold && b == "\n" && solid && !blank c.front then
            if breaks.isEmpty then " " else ""
          else b
        blockLines fold indent n (s ++ joint) breaks c
      else (s, b, breaks, c)
    else (s, "", breaks, c)

/-- A block scalar inside a node at the given indentation, the cursor being at its indicator. -/
def blockScalar (fold : Bool) (parent : Int) (c : Cursor) : Reading := do
  let (header, c) ← blockHeader c.next
  let least := (max 1 (parent + 1)).toNat
  let (indent, breaks, c) := match header.indent with
    | none =>
      let (s, deepest, c) := blockLead (c.rest.length + 1) "" 0 c
      (max least deepest, s, c)
    | some d =>
      let (s, c) := blockBreaks (least + d - 1) (c.rest.length + 1) "" c
      (least + d - 1, s, c)
  let (s, last, breaks, c) := blockLines fold indent (c.rest.length + 1) "" breaks c
  return (match header.chomping with
    | .strip => (s, c)
    | .clip => (s ++ last, c)
    | .keep => (s ++ last ++ breaks, c))

end Yaml

end Chronoplan
