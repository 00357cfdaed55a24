/-!
# Rounding a quotient

One division with remainder, and a rule for the tie. Binary rounding, decimal rounding and the
rounding of ticks all go through `divRound`; they differ only in the grid and in the tie rule.
The result is never more than half a unit away from the quotient.
-/

set_option autoImplicit false

namespace Chronoplan

inductive Tie
  | even
  | away
deriving DecidableEq

def Tie.goesUp : Tie → Nat → Bool
  | .even, q => q % 2 == 1
  | .away, _ => true

/-- The integer nearest to `n / d`, ties by the given rule. -/
def divRound (tie : Tie) (n d : Nat) : Nat :=
  let q := n / d
  let r := n % d
  if d < 2 * r ∨ (2 * r = d ∧ tie.goesUp q = true) then q + 1 else q

theorem divRound_lower (tie : Tie) (n d : Nat) (hd : 0 < d) :
    2 * n ≤ 2 * d * divRound tie n d + d := by
  have hq := Nat.div_add_mod n d
  have hr := Nat.mod_lt n hd
  unfold divRound
  simp only
  split
  · rw [Nat.mul_assoc, Nat.mul_add, Nat.mul_one]; omega
  · rw [Nat.mul_assoc]; omega

theorem divRound_upper (tie : Tie) (n d : Nat) :
    2 * d * divRound tie n d ≤ 2 * n + d := by
  have hq := Nat.div_add_mod n d
  unfold divRound
  simp only
  split
  · rw [Nat.mul_assoc, Nat.mul_add, Nat.mul_one]; omega
  · rw [Nat.mul_assoc]; omega

theorem divRound_one (tie : Tie) (n : Nat) : divRound tie n 1 = n := by
  simp [divRound, Nat.mod_one]

end Chronoplan
