import Chronoplan.Text.Blank

/-!
# Decimal digits of all scripts

Every script that writes decimal numbers has its ten digits in a row, so the place of its zero
decides. A number may be written in the digits of any script; `plainForm` brings it to the digits
and the blank of ASCII.
-/

set_option autoImplicit false

namespace Chronoplan

def digitZeros : List Nat := [
    48, 1632, 1776, 1984, 2406, 2534, 2662, 2790, 2918, 3046, 3174, 3302, 3430, 3558, 3664,
    3792, 3872, 4160, 4240, 6112, 6160, 6470, 6608, 6784, 6800, 6992, 7088, 7232, 7248, 42528,
    43216, 43264, 43472, 43504, 43600, 44016, 65296, 66720, 68912, 69734, 69872, 69942, 70096,
    70384, 70736, 70864, 71248, 71360, 71472, 71904, 72016, 72784, 73040, 73120, 92768, 92864,
    93008, 120782, 120792, 120802, 120812, 120822, 123200, 123632, 125264, 130032]

def decimalDigit? (c : Char) : Option Nat :=
  let n := c.toNat
  (digitZeros.find? fun start => start ≤ n && n < start + 10).map fun start => n - start

def isDecimalDigit (c : Char) : Bool := (decimalDigit? c).isSome

/-- A character beyond ASCII that is a blank or a digit, as its ASCII counterpart. -/
def plainForm (c : Char) : Char :=
  if c.toNat < 128 then c
  else if isSpace c then ' '
  else
    match decimalDigit? c with
    | some d => Char.ofNat ('0'.toNat + d)
    | none => c

def isPlainBlank (c : Char) : Bool := c == ' ' || (9 ≤ c.toNat && c.toNat ≤ 13)

def plainNumber (cs : List Char) : List Char := strip isPlainBlank (cs.map plainForm)

end Chronoplan
