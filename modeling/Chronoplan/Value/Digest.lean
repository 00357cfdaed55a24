import Chronoplan.Number.Residue
import Chronoplan.Value.Basic

/-!
# Digests of values

A digest tells values apart only as far as their residues do: equal values agree in it, and so do
some different numbers. Everything but numbers is told apart as by equality.
-/

set_option autoImplicit false

namespace Chronoplan

namespace Value

mutual

def sameDigest : Value → Value → Bool
  | .num a, .num b =>
    match a.residue?, b.residue? with
    | some r, some s => r == s
    | _, _ => sameNaN (.num a) (.num b)
  | .tuple a, .tuple b => sameDigests a b
  | a, b => eq a b

def sameDigests : List Value → List Value → Bool
  | [], [] => true
  | a :: as, b :: bs => sameDigest a b && sameDigests as bs
  | _, _ => false

end

end Value

end Chronoplan
