import Chronoplan.Text.Quoted
import Chronoplan.Yaml.Cursor

/-!
# Writing YAML scalars

A pen holds what has been written and where the line stands. A scalar is written plain where its
text cannot be mistaken for something else, in single quotes where it needs no escapes, and in
double quotes otherwise. A line that is longer than the width is folded at its next single space.
-/

set_option autoImplicit false

namespace Chronoplan

namespace Yaml

structure Pen where
  text : String
  column : Nat
  spaced : Bool
  /-- Whether nothing but indentation and indicators is on the line. -/
  fresh : Bool

namespace Pen

def start : Pen := { text := "", column := 0, spaced := true, fresh := true }

def width : Nat := 80

def put (p : Pen) (s : String) : Pen :=
  { p with text := p.text ++ s, column := p.column + s.length }

/-- An indicator that needs a blank before it unless it is `joined` to what is there. -/
def mark (p : Pen) (s : String) (joined : Bool) : Pen :=
  { p.put (if p.spaced || joined then s else " " ++ s) with spaced := false, fresh := false }

def openMark (p : Pen) (s : String) : Pen := { p.mark s false with fresh := p.fresh }

def breakLine (p : Pen) : Pen :=
  { text := p.text ++ "\n", column := 0, spaced := true, fresh := true }

def indentTo (p : Pen) (indent : Nat) : Pen :=
  let p :=
    if !p.fresh || p.column > indent || (p.column == indent && !p.spaced) then p.breakLine else p
  if p.column < indent then
    { p.put (String.ofList (List.replicate (indent - p.column) ' ')) with spaced := true }
  else p

end Pen

/-! ## Choosing a style -/

inductive Style
  | plain
  | single
  | double
deriving DecidableEq

def isInnerBreak (c : Char) : Bool := isBreak c && c != '\r'

def hasPair (before after : Char → Bool) : List Char → Bool
  | a :: b :: r => (before a && after b) || hasPair before after (b :: r)
  | _ => false

def isSpaceOrBreak (c : Char) : Bool := c == ' ' || isInnerBreak c

def isMultiline (cs : List Char) : Bool := cs.any isInnerBreak

def needsEscape (cs : List Char) : Bool :=
  cs.any fun c => !(c == '\n' || (' ' ≤ c && c ≤ '~'))

def hasIndicator (cs : List Char) : Bool :=
  ['-', '-', '-'].isPrefixOf cs || ['.', '.', '.'].isPrefixOf cs
    || (match cs with
      | [] => false
      | c :: r =>
        "#,[]\x7b\x7d&*!|>\x27\"%@\x60".toList.contains c
          || ("?:-".toList.contains c && isGap (r.headD endMark)))
    || hasPair (· == ':') isGap (cs.drop 1 ++ [endMark])
    || hasPair isGap (· == '#') cs

def mayBeSingle (cs : List Char) : Bool :=
  !(needsEscape cs || hasPair isInnerBreak (· == ' ') cs || hasPair (· == ' ') isInnerBreak cs)

def mayBePlain (cs : List Char) : Bool :=
  mayBeSingle cs && !(isMultiline cs || hasIndicator cs || isSpaceOrBreak (cs.headD 'x')
    || isSpaceOrBreak (cs.getLastD 'x'))

def Style.of (implied simpleKey : Bool) (cs : List Char) : Style :=
  if implied && !(simpleKey && cs.isEmpty) && mayBePlain cs then .plain
  else if mayBeSingle cs && !(simpleKey && isMultiline cs) then .single
  else .double

/-! ## Folding -/

def runs (cs : List Char) : List (List Char) :=
  cs.splitBy fun a b => (a == ' ') == (b == ' ') && isInnerBreak a == isInnerBreak b

namespace Pen

/-- A single space between words of a line that is already too long becomes a line break. -/
def folds (p : Pen) (splits isFirst : Bool) (run : List Char) (later : List (List Char)) : Bool :=
  splits && !isFirst && !later.isEmpty && run.length == 1 && p.column > width

def plainRuns (splits : Bool) (indent : Nat) : Bool → List (List Char) → Pen → Pen
  | _, [], p => p
  | isFirst, run :: r, p =>
    if run.head? == some ' ' && p.folds splits isFirst run r then
      plainRuns splits indent false r { p.indentTo indent with spaced := false, fresh := false }
    else plainRuns splits indent false r (p.put (String.ofList run))

def plain (splits : Bool) (indent : Nat) (cs : List Char) (p : Pen) : Pen :=
  if cs.isEmpty then p
  else
    let p := if p.spaced then p else p.put " "
    plainRuns splits indent true (runs cs) { p with spaced := false, fresh := false }

def doubleQuotes (cs : List Char) : List Char :=
  cs.flatMap fun c => if c == '\x27' then [c, c] else [c]

def singleRuns (splits : Bool) (indent : Nat) : Bool → List (List Char) → Pen → Pen
  | _, [], p => p
  | isFirst, run :: r, p =>
    let p :=
      match run with
      | [] => p
      | c :: _ =>
        if c == ' ' then
          if p.folds splits isFirst run r then p.indentTo indent else p.put (String.ofList run)
        else if isInnerBreak c then
          (run.foldl (fun p _ => p.breakLine) p.breakLine).indentTo indent
        else p.put (String.ofList (doubleQuotes run))
    singleRuns splits indent false r p

def single (splits : Bool) (indent : Nat) (cs : List Char) (p : Pen) : Pen :=
  (singleRuns splits indent true (runs cs) (p.mark "\x27" false)).mark "\x27" true

def shortEscape? (c : Char) : Option Char :=
  match c.toNat with
  | 0 => some '0'
  | 7 => some 'a'
  | 8 => some 'b'
  | 9 => some 't'
  | 10 => some 'n'
  | 11 => some 'v'
  | 12 => some 'f'
  | 13 => some 'r'
  | 27 => some 'e'
  | 34 => some '"'
  | 92 => some '\\'
  | 133 => some 'N'
  | 160 => some '_'
  | 8232 => some 'L'
  | 8233 => some 'P'
  | _ => none

def upperHex (digits n : Nat) : List Char := (hexText digits n).map Char.toUpper

def escape? (c : Char) : Option (List Char) :=
  match shortEscape? c with
  | some e => some ['\\', e]
  | none =>
    if ' ' ≤ c && c ≤ '~' then none
    else if c.toNat < 256 then some ('\\' :: 'x' :: upperHex 2 c.toNat)
    else if c.toNat < 65536 then some ('\\' :: 'u' :: upperHex 4 c.toNat)
    else some ('\\' :: 'U' :: upperHex 8 c.toNat)

/-- Characters of a double-quoted scalar. `pending` is what is not written yet; a line may end
before a space or behind an escape, where a backslash joins it to the next one. -/
def doubleChars (splits : Bool) (indent : Nat) : Bool → String → List Char → Pen → Pen
  | _, pending, [], p => p.put pending
  | isFirst, pending, c :: r, p =>
    let escaped := escape? c
    let (p, pending) :=
      match escaped with
      | some e => ((p.put pending).put (String.ofList e), "")
      | none => (p, pending)
    let tooLong :=
      if escaped.isSome then p.column > width + 1 else p.column + pending.length > width
    let (p, pending) :=
      if splits && !isFirst && !r.isEmpty && (c == ' ' || pending.isEmpty) && tooLong then
        let next := if escaped.isSome then r.headD endMark else c
        let p := { (p.put (pending ++ "\\")).indentTo indent with spaced := false, fresh := false }
        (if next == ' ' then p.put "\\" else p, "")
      else (p, pending)
    doubleChars splits indent false (if escaped.isSome then pending else pending.push c) r p

def double (splits : Bool) (indent : Nat) (cs : List Char) (p : Pen) : Pen :=
  (doubleChars splits indent true "" cs (p.mark "\"" false)).mark "\"" true

def literal (indent : Nat) (lines : List String) (p : Pen) : Pen :=
  lines.foldl (fun p line => ((p.indentTo indent).put line).breakLine) (p.mark "|" false).breakLine

def scalar (style : Style) (splits : Bool) (indent : Nat) (cs : List Char) (p : Pen) : Pen :=
  match style with
  | .plain => p.plain splits indent cs
  | .single => p.single splits indent cs
  | .double => p.double splits indent cs

end Pen

end Yaml

end Chronoplan
