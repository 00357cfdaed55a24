import Chronoplan.Text.Unprintable

/-!
# Quoted strings

Two written forms of a string. The display form takes single quotes, or double quotes when that
saves escaping, and escapes what cannot be printed; octets have a display form of the same kind.
The strict form takes double quotes and is plain ASCII: every other character is written as one or
two UTF-16 units.
-/

set_option autoImplicit false

namespace Chronoplan

def hexDigit (n : Nat) : Char :=
  if n < 10 then Char.ofNat (n + 48) else Char.ofNat (n + 87)

def hexText : Nat → Nat → List Char
  | 0, _ => []
  | width + 1, n => hexText width (n / 16) ++ [hexDigit (n % 16)]

namespace Display

/-- Single quotes, unless the string has one and no double quote. -/
def quoteFor (cs : List Char) : Char :=
  if cs.contains '\x27' && !cs.contains '"' then '"' else '\x27'

def escape (quote c : Char) : List Char :=
  if c = quote ∨ c = '\\' then ['\\', c]
  else if c = '\t' then ['\\', 't']
  else if c = '\n' then ['\\', 'n']
  else if c = '\r' then ['\\', 'r']
  else if isUnprintable c then
    if c.toNat < 256 then '\\' :: 'x' :: hexText 2 c.toNat
    else if c.toNat < 65536 then '\\' :: 'u' :: hexText 4 c.toNat
    else '\\' :: 'U' :: hexText 8 c.toNat
  else [c]

def quote (s : String) : String :=
  let q := quoteFor s.toList
  String.ofList (q :: s.toList.flatMap (escape q) ++ [q])

def quoteOctets (octets : List Nat) : String :=
  let cs := octets.map Char.ofNat
  let q := quoteFor cs
  let escaped (c : Char) : List Char :=
    if c.toNat < 128 then escape q c else '\\' :: 'x' :: hexText 2 c.toNat
  String.ofList ('b' :: q :: cs.flatMap escaped ++ [q])

end Display

namespace Strict

def unit (n : Nat) : List Char := '\\' :: 'u' :: hexText 4 n

def escape (c : Char) : List Char :=
  if c = '"' ∨ c = '\\' then ['\\', c]
  else if c = '\n' then ['\\', 'n']
  else if c = '\r' then ['\\', 'r']
  else if c = '\t' then ['\\', 't']
  else if c.toNat = 8 then ['\\', 'b']
  else if c.toNat = 12 then ['\\', 'f']
  else if 32 ≤ c.toNat ∧ c.toNat < 127 then [c]
  else if c.toNat < 65536 then unit c.toNat
  else
    let n := c.toNat - 65536
    unit (55296 + n / 1024) ++ unit (56320 + n % 1024)

def quote (s : String) : String :=
  String.ofList ('"' :: s.toList.flatMap escape ++ ['"'])

end Strict

end Chronoplan
