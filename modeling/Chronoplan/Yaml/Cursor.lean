import Chronoplan.Fault

/-!
# Positions in a YAML text

A cursor is the text that is still to be read together with the line and column of its first
character. The end of the text reads as a zero character, which cannot occur in it. Whatever is
not YAML is the fault `notYaml`.
-/

set_option autoImplicit false

namespace Chronoplan

namespace Yaml

/-- Stands for the end of the text. -/
def endMark : Char := Char.ofNat 0

def nextLine : Char := Char.ofNat 133

def lineSeparator : Char := Char.ofNat 8232

def paragraphSeparator : Char := Char.ofNat 8233

def byteOrderMark : Char := Char.ofNat 65279

def isBreak (c : Char) : Bool :=
  c == '\n' || c == '\r' || c == nextLine || c == lineSeparator || c == paragraphSeparator

def endsLine (c : Char) : Bool := c == endMark || isBreak c

def endsWord (c : Char) : Bool := c == ' ' || endsLine c

def isGap (c : Char) : Bool := c == '\t' || endsWord c

def isWordChar (c : Char) : Bool := c.isAlphanum || c == '-' || c == '_'

def isAllowed (c : Char) : Bool :=
  let n := c.toNat
  n == 9 || n == 10 || n == 13 || (32 ≤ n && n ≤ 126) || n == 133 || (160 ≤ n && n ≤ 55295)
    || (57344 ≤ n && n ≤ 65533) || (65536 ≤ n && n ≤ 1114111)

structure Cursor where
  rest : List Char
  index : Nat
  line : Nat
  column : Nat

namespace Cursor

def ofText (s : String) : Cursor := { rest := s.toList, index := 0, line := 0, column := 0 }

def peek (c : Cursor) (k : Nat) : Char := (c.rest[k]?).getD endMark

def front (c : Cursor) : Char := c.rest.headD endMark

def next (c : Cursor) : Cursor :=
  match c.rest with
  | [] => c
  | x :: r =>
    if isBreak x && !(x == '\r' && r.headD endMark == '\n') then
      { rest := r, index := c.index + 1, line := c.line + 1, column := 0 }
    else
      { rest := r, index := c.index + 1, line := c.line,
        column := if x == byteOrderMark then c.column else c.column + 1 }

def skip : Nat → Cursor → Cursor
  | 0, c => c
  | n + 1, c => skip n c.next

def takeWhile (test : Char → Bool) (c : Cursor) : String × Cursor :=
  let taken := c.rest.takeWhile test
  (String.ofList taken, c.skip taken.length)

def skipWhile (test : Char → Bool) (c : Cursor) : Cursor := (c.takeWhile test).2

def skipSpaces (c : Cursor) : Cursor := c.skipWhile (· == ' ')

def startsWith (c : Cursor) (s : List Char) : Bool := s.isPrefixOf c.rest

/-- A line break, if there is one here, normalised where it has more than one spelling. -/
def lineBreak (c : Cursor) : String × Cursor :=
  let x := c.front
  if x == '\r' && c.peek 1 == '\n' then ("\n", c.skip 2)
  else if x == '\n' || x == '\r' || x == nextLine then ("\n", c.next)
  else if x == lineSeparator || x == paragraphSeparator then (String.singleton x, c.next)
  else ("", c)

def skipComment (c : Cursor) : Cursor :=
  if c.front == '#' then c.skipWhile fun x => !endsLine x else c

def atMark (c : Cursor) (x : Char) : Bool := c.startsWith [x, x, x] && isGap (c.peek 3)

def atDocumentMark (c : Cursor) : Bool := c.atMark '-' || c.atMark '.'

def skipRestOfLine (c : Cursor) : Except Fault Cursor :=
  let c := c.skipSpaces.skipComment
  if endsLine c.front then .ok c.lineBreak.2 else .error .notYaml

end Cursor

end Yaml

end Chronoplan
