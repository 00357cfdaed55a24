import Chronoplan.Number.Basic

/-!
# Residues of numbers

Equal numbers have equal residues whatever their spelling: the residue of a fraction modulo a
large prime, with the sign of the fraction. Numbers of one residue need not be equal.
-/

set_option autoImplicit false

namespace Chronoplan

def residueModulus : Nat := 2305843009213693951

def powerModulo (modulus base : Nat) (e : Nat) : Nat :=
  if e = 0 then 1 % modulus
  else
    let half := powerModulo modulus (base * base % modulus) (e / 2)
    if e % 2 = 1 then half * base % modulus else half
termination_by e

def infiniteResidue : Int := 314159

/-- The residue of a fraction; the residue -1 is replaced by -2. -/
def ratioResidue (q : Rat) : Int :=
  let inverse := powerModulo residueModulus (q.den % residueModulus) (residueModulus - 2)
  let magnitude : Int :=
    if q.den % residueModulus = 0 then infiniteResidue
    else (q.num.natAbs % residueModulus * inverse % residueModulus : Nat)
  let signed := if q.num < 0 then -magnitude else magnitude
  if signed = -1 then -2 else signed

def Number.residue? (a : Number) : Option Int :=
  match a.place? with
  | some .bot => some (-infiniteResidue)
  | some (.line q) => some (ratioResidue q)
  | some .top => some infiniteResidue
  | none => none

end Chronoplan
