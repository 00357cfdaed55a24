import Chronoplan.Number.Shortest
import Chronoplan.Tick.Unit

/-!
# Rounding to ticks

A whole quotient is kept as it is. Any other is first rounded to 28 significant digits, ties to
even, and then to an integer, ties away from zero. A result of more than 28 digits is refused, and
already the first step refuses one whose decimal exponent is too large. Both steps treat the two
signs alike, so a reversed bound is rounded to the reversed result.
-/

set_option autoImplicit false

namespace Chronoplan

def quotientDigits : Nat := 28

def largestExponent : Nat := 999999

/-- The rounded magnitude of `n / d`. -/
def roundMagnitude (n d : Nat) : Except Fault Nat :=
  let leading := leadingExponent n d
  let exponent := leading - (quotientDigits - 1)
  if exponent > 0 then
    let digits := divRound .even n (d * Nat.pow 10 exponent.toNat)
    -- digits that carry over raise the exponent by one
    let raised := if digits < Nat.pow 10 quotientDigits then leading else leading + 1
    .error (if raised > largestExponent then .exponentTooLarge else .tooPrecise)
  else
    let scale := Nat.pow 10 (-exponent).toNat
    let digits := divRound .even (n * scale) d
    let rounded := divRound .away digits scale
    if rounded < Nat.pow 10 quotientDigits then .ok rounded else .error .tooPrecise

def roundTicks (q : Rat) : Except Fault Int :=
  if q.den = 1 then .ok q.num
  else
    match roundMagnitude q.num.natAbs q.den with
    | .error fault => .error fault
    | .ok m => .ok (if q.num < 0 then -m else m)

def Number.toRatio : Number → Except Fault Rat
  | .bool b => .ok (if b then 1 else 0)
  | .int n => .ok n
  | .float (.nan _) => .error .malformed
  | .float .negInf => .error .tooLarge
  | .float .posInf => .error .tooLarge
  | .float .negZero => .ok 0
  | .float (.finite q) => .ok q
  | .ratio q => .ok q

def scaleBound (b : Number) (factor : Rat) : Except Fault Number := do
  let x ← b.toBinary64
  if x.isInfinite then return b
  let q ← b.toRatio
  let n ← roundTicks (q * factor)
  return .int n

theorem roundTicks_int (n : Int) : roundTicks n = .ok n := by
  simp [roundTicks]

theorem roundTicks_neg (q : Rat) (k : Int) (h : roundTicks q = .ok k) :
    roundTicks (-q) = .ok (-k) := by
  unfold roundTicks at h ⊢
  simp only [Rat.neg_num, Rat.neg_den, Int.natAbs_neg]
  by_cases whole : q.den = 1
  · rw [if_pos whole] at h ⊢
    cases h
    rfl
  · rw [if_neg whole] at h ⊢
    -- only a whole quotient can be zero
    have nonzero : q.num ≠ 0 := by
      intro zero
      exact whole (by rw [Rat.num_eq_zero.mp zero]; rfl)
    cases hm : roundMagnitude q.num.natAbs q.den with
    | error fault => simp [hm] at h
    | ok m =>
      simp only [hm, Except.ok.injEq] at h ⊢
      rw [← h]
      split <;> split <;> omega

end Chronoplan
