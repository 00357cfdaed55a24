import Chronoplan.Yaml.Label

/-!
# Tokens of YAML

Scanning turns a text into tokens in which the structure that indentation expresses is explicit.
A mapping key needs no indicator: whatever can be one is remembered, and when a value indicator
follows it on the same line, the key token, and the start of a block mapping when the indentation
grows, are put in front of it afterwards.
-/

set_option autoImplicit false

namespace Chronoplan

namespace Yaml

inductive Token
  | directive (d : Directive)
  | documentStart
  | documentEnd
  | blockSequenceStart
  | blockMappingStart
  | blockEnd
  | flowSequenceStart
  | flowSequenceEnd
  | flowMappingStart
  | flowMappingEnd
  | blockEntry
  | flowEntry
  | key
  | value
  | alias (name : String)
  | anchor (name : String)
  | tag (t : Tag)
  | scalar (text : String) (plain : Bool)
deriving DecidableEq

structure KeyPlace where
  flow : Nat
  token : Nat
  /-- In a block, what begins at the indentation of a mapping has to be a key. -/
  required : Bool
  index : Nat
  line : Nat
  column : Nat

structure Scan where
  cursor : Cursor
  /-- The tokens so far, the last one first. -/
  tokens : List Token
  flow : Nat
  indent : Int
  outer : List Int
  allowKey : Bool
  keys : List KeyPlace

namespace Scan

def start (c : Cursor) : Scan :=
  { cursor := c, tokens := [], flow := 0, indent := -1, outer := [], allowKey := true, keys := [] }

def column (s : Scan) : Int := s.cursor.column

def inBlock (s : Scan) : Bool := s.flow == 0

def emit (s : Scan) (t : Token) : Scan := { s with tokens := t :: s.tokens }

def allow (s : Scan) (b : Bool) : Scan := { s with allowKey := b }

def insertAt (s : Scan) (count : Nat) (new : List Token) : Scan :=
  let later := s.tokens.length - count
  { s with tokens := s.tokens.take later ++ new ++ s.tokens.drop later }

/-! ## Keys without an indicator -/

def keyPlace? (s : Scan) : Option KeyPlace := s.keys.find? (·.flow == s.flow)

def dropKey (s : Scan) : Scan := { s with keys := s.keys.filter (·.flow != s.flow) }

def abandonKey (s : Scan) : Except Fault Scan :=
  match s.keyPlace? with
  | some k => if k.required then .error .notYaml else .ok s.dropKey
  | none => .ok s

def rememberKey (s : Scan) : Except Fault Scan := do
  if s.allowKey then
    let s ← s.abandonKey
    let place : KeyPlace :=
      { flow := s.flow, token := s.tokens.length
        required := s.inBlock && s.indent == s.column
        index := s.cursor.index, line := s.cursor.line, column := s.cursor.column }
    return { s with keys := place :: s.keys }
  else return s

/-- Whether a key is out of reach: it has to be on the same line and not too long. -/
def outOfReach (s : Scan) (k : KeyPlace) : Bool :=
  k.line != s.cursor.line || s.cursor.index - k.index > 1024

def forgetStaleKeys (s : Scan) : Except Fault Scan :=
  if s.keys.any fun k => s.outOfReach k && k.required then .error .notYaml
  else .ok { s with keys := s.keys.filter fun k => !s.outOfReach k }

/-! ## Indentation -/

def unwindTo (column : Int) : List Int → Scan → Scan
  | [], s => s
  | i :: r, s =>
    if s.indent > column then
      unwindTo column r { s with tokens := .blockEnd :: s.tokens, indent := i, outer := r }
    else s

def unwind (s : Scan) (column : Int) : Scan :=
  if s.inBlock then unwindTo column s.outer s else s

def indentMore (s : Scan) (column : Int) : Scan :=
  { s with indent := column, outer := s.indent :: s.outer }

def openBlock (s : Scan) (t : Token) : Scan :=
  if s.indent < s.column then (s.emit t).indentMore s.column else s

def openBlockAtIndicator (s : Scan) (t : Token) : Except Fault Scan :=
  if s.inBlock then if s.allowKey then .ok (s.openBlock t) else .error .notYaml else .ok s

/-! ## Tokens -/

def take (s : Scan) (length : Nat) (t : Token) : Scan :=
  { s with cursor := s.cursor.skip length, tokens := t :: s.tokens }

def skipToToken : Nat → Scan → Scan
  | 0, s => s
  | n + 1, s =>
    let c := s.cursor.skipSpaces.skipComment
    if isBreak c.front then
      skipToToken n { s with cursor := c.lineBreak.2, allowKey := s.allowKey || s.inBlock }
    else { s with cursor := c }

def leaveBlocks (s : Scan) : Except Fault Scan :=
  return (← (s.unwind (-1)).abandonKey).allow false

def scanDirective (s : Scan) : Except Fault Scan := do
  let s ← s.leaveBlocks
  let (d, c) ← directive s.cursor
  return { s.emit (.directive d) with cursor := c }

def scanDocumentMark (s : Scan) (t : Token) : Except Fault Scan :=
  return (← s.leaveBlocks).take 3 t

def scanFlowStart (s : Scan) (t : Token) : Except Fault Scan := do
  let s ← s.rememberKey
  return ({ s with flow := s.flow + 1 }.allow true).take 1 t

def scanFlowEnd (s : Scan) (t : Token) : Except Fault Scan := do
  let s ← s.abandonKey
  match s.flow with
  | 0 => throw .notYaml
  | level + 1 => return ({ s with flow := level }.allow false).take 1 t

def scanFlowEntry (s : Scan) : Except Fault Scan :=
  return (← (s.allow true).abandonKey).take 1 .flowEntry

def scanBlockEntry (s : Scan) : Except Fault Scan := do
  let s ← s.openBlockAtIndicator .blockSequenceStart
  return (← (s.allow true).abandonKey).take 1 .blockEntry

def scanKey (s : Scan) : Except Fault Scan := do
  let s ← s.openBlockAtIndicator .blockMappingStart
  return (← (s.allow s.inBlock).abandonKey).take 1 .key

def scanValue (s : Scan) : Except Fault Scan :=
  match s.keyPlace? with
  | some k =>
    let s := s.dropKey
    let s :=
      if s.inBlock && s.indent < k.column then
        (s.insertAt k.token [.key, .blockMappingStart]).indentMore k.column
      else s.insertAt k.token [.key]
    .ok ((s.allow false).take 1 .value)
  | none => do
    let s ← s.openBlockAtIndicator .blockMappingStart
    return (← (s.allow s.inBlock).abandonKey).take 1 .value

def scanAtom {α : Type} (s : Scan) (read : Cursor → Except Fault (α × Cursor))
    (token : α → Token) : Except Fault Scan := do
  let s ← s.rememberKey
  let (a, c) ← read s.cursor
  return { (s.allow false).emit (token a) with cursor := c }

def scanBlockScalar (s : Scan) (fold : Bool) : Except Fault Scan := do
  let s ← (s.allow true).abandonKey
  let (text, c) ← blockScalar fold s.indent s.cursor
  return { s.emit (.scalar text false) with cursor := c }

def scanPlain (s : Scan) : Except Fault Scan := do
  let s ← s.rememberKey
  let (text, c, broke) := plainScalar (!s.inBlock) (s.indent + 1) s.cursor
  return { (s.allow broke).emit (.scalar text true) with cursor := c }

def atPlain (s : Scan) : Bool :=
  let x := s.cursor.front
  !(isGap x || "-?:,[]\x7b\x7d#&*!|>\x27\"%@\x60".toList.contains x)
    || (!isGap (s.cursor.peek 1) && (x == '-' || (s.inBlock && (x == '?' || x == ':'))))

def aloneOrFlow (s : Scan) : Bool := !s.inBlock || isGap (s.cursor.peek 1)

def scanToken (s : Scan) : Except Fault Scan :=
  let c := s.cursor
  let x := c.front
  if x == '%' && c.column == 0 then s.scanDirective
  else if c.column == 0 && c.atMark '-' then s.scanDocumentMark .documentStart
  else if c.column == 0 && c.atMark '.' then s.scanDocumentMark .documentEnd
  else if x == '[' then s.scanFlowStart .flowSequenceStart
  else if x == '\x7b' then s.scanFlowStart .flowMappingStart
  else if x == ']' then s.scanFlowEnd .flowSequenceEnd
  else if x == '\x7d' then s.scanFlowEnd .flowMappingEnd
  else if x == ',' then s.scanFlowEntry
  else if x == '-' && isGap (c.peek 1) then s.scanBlockEntry
  else if x == '?' && s.aloneOrFlow then s.scanKey
  else if x == ':' && s.aloneOrFlow then s.scanValue
  else if x == '*' then s.scanAtom anchorName .alias
  else if x == '&' then s.scanAtom anchorName .anchor
  else if x == '!' then s.scanAtom tag .tag
  else if x == '|' && s.inBlock then s.scanBlockScalar false
  else if x == '>' && s.inBlock then s.scanBlockScalar true
  else if x == '\x27' then s.scanAtom (quotedScalar false) (.scalar · false)
  else if x == '"' then s.scanAtom (quotedScalar true) (.scalar · false)
  else if s.atPlain then s.scanPlain
  else .error .notYaml

/-- The number of tokens that no remembered key can change any more. -/
def settled (s : Scan) : Nat :=
  (s.keys.filter fun k => !s.outOfReach k).foldl (fun n k => min n k.token) s.tokens.length

def advance (s : Scan) : Except Fault (Scan × Bool) := do
  let s ← (skipToToken (s.cursor.rest.length + 1) s).forgetStaleKeys
  let s := s.unwind s.column
  if s.cursor.front == endMark then return (← (s.unwind (-1)).abandonKey, true)
  else return (← s.scanToken, false)

end Scan

/-- The tokens of a text as far as it can be scanned, and the fault behind them, if there is
one. Tokens that the fault leaves in doubt are not among them. -/
structure TokenStream where
  tokens : List Token
  fault : Option Fault

namespace TokenStream

def ofScan : Nat → Scan → TokenStream
  | 0, _ => { tokens := [], fault := some .notYaml }
  | n + 1, s =>
    match s.advance with
    | .ok (s, false) => ofScan n s
    | .ok (s, true) => { tokens := s.tokens.reverse, fault := none }
    | .error f => { tokens := s.tokens.reverse.take s.settled, fault := some f }

def ofText (s : String) : TokenStream :=
  let c := Cursor.ofText s
  if c.rest.any fun x => !isAllowed x then { tokens := [], fault := some .notYaml }
  else
    let c := if c.front == byteOrderMark then c.next else c
    ofScan (c.rest.length + 1) (Scan.start c)

end TokenStream

end Yaml

end Chronoplan
