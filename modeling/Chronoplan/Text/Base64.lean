/-!
# Octets as text in base 64

Every four characters of the alphabet hold three octets. Reading passes over all other characters
and ends where the padding completes a group; a group that stays incomplete is refused. Writing
breaks the text into lines.
-/

set_option autoImplicit false

namespace Chronoplan

namespace Base64

def alphabet : List Char :=
  "ABCDEFGHIJKLMNOPQRSTUVWXYZabcdefghijklmnopqrstuvwxyz0123456789+/".toList

def sextet? (c : Char) : Option Nat :=
  let place := alphabet.idxOf c
  if place < 64 then some place else none

/-! ## Reading -/

/-- What has been read of a group: its characters, those of the padding, and the bits that still
belong to the next octet. -/
structure Group where
  read : Nat
  padding : Nat
  bits : Nat

def Group.take (g : Group) (sextet : Nat) : Group × Option Nat :=
  match g.read with
  | 0 => ({ read := 1, padding := 0, bits := sextet }, none)
  | 1 => ({ read := 2, padding := 0, bits := sextet % 16 }, some (g.bits * 4 + sextet / 16))
  | 2 => ({ read := 3, padding := 0, bits := sextet % 4 }, some (g.bits * 16 + sextet / 4))
  | _ => ({ read := 0, padding := 0, bits := 0 }, some (g.bits * 64 + sextet))

def readFrom (g : Group) : List Char → Option (List Nat)
  | [] => if g.read = 0 then some [] else none
  | c :: r =>
    if c == '=' then
      if g.read < 2 then readFrom g r
      else if 4 ≤ g.read + g.padding + 1 then some []
      else readFrom { g with padding := g.padding + 1 } r
    else
      match sextet? c with
      | none => readFrom g r
      | some sextet =>
        let (next, octet) := g.take sextet
        (readFrom next r).map fun octets => octet.toList ++ octets

def read? (cs : List Char) : Option (List Nat) := readFrom { read := 0, padding := 0, bits := 0 } cs

/-! ## Writing -/

def character (sextet : Nat) : Char := alphabet.getD sextet '='

def group : List Nat → List Char
  | [] => []
  | [a] => [character (a / 4), character (a % 4 * 16), '=', '=']
  | [a, b] => [character (a / 4), character (a % 4 * 16 + b / 16), character (b % 16 * 4), '=']
  | a :: b :: c :: _ =>
    [character (a / 4), character (a % 4 * 16 + b / 16), character (b % 16 * 4 + c / 64),
      character (c % 64)]

def characters : List Nat → List Char
  | a :: b :: c :: r => group [a, b, c] ++ characters r
  | octets => group octets

def lineOctets : Nat := 57

def linesFrom : Nat → List Nat → List String
  | 0, _ => []
  | _ + 1, [] => []
  | n + 1, o :: r =>
    String.ofList (characters ((o :: r).take lineOctets)) :: linesFrom n ((o :: r).drop lineOctets)

def lines (octets : List Nat) : List String := linesFrom octets.length octets

end Base64

end Chronoplan
