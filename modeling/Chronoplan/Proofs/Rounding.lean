import Mathlib
import Chronoplan.Tick.Rounding

/-!
# Rounding in two steps

A quotient is rounded to 28 significant digits first and to an integer after that. The first step
moves it onto a grid on which every tie of the second step lies. As long as the grid is finer than
the denominator, no quotient below a tie reaches it, and the two steps round as one would.
-/

set_option autoImplicit false

namespace Chronoplan

/-! ### An integer on one side of the quotient -/

theorem divRound_le (tie : Tie) (n d t : ℕ) (hd : 0 < d) (h : n ≤ t * d) :
    divRound tie n d ≤ t := by
  have upper := divRound_upper tie n d
  have doubled : 2 * d * divRound tie n d ≤ d * (2 * t + 1) :=
    calc 2 * d * divRound tie n d
        ≤ 2 * n + d := upper
      _ ≤ 2 * (t * d) + d := by omega
      _ = d * (2 * t + 1) := by ring
  have cancelled : 2 * divRound tie n d ≤ 2 * t + 1 :=
    Nat.le_of_mul_le_mul_left (by rwa [← mul_assoc, mul_comm d 2]) hd
  omega

theorem le_divRound (tie : Tie) (n d t : ℕ) (hd : 0 < d) (h : t * d ≤ n) :
    t ≤ divRound tie n d := by
  have lower := divRound_lower tie n d hd
  have doubled : d * (2 * t) ≤ d * (2 * divRound tie n d + 1) :=
    calc d * (2 * t)
        = 2 * (t * d) := by ring
      _ ≤ 2 * n := by omega
      _ ≤ 2 * d * divRound tie n d + d := lower
      _ = d * (2 * divRound tie n d + 1) := by ring
  have cancelled := Nat.le_of_mul_le_mul_left doubled hd
  omega

/-! ### Halves away from zero -/

theorem divRound_away_eq (n d : ℕ) (hd : 0 < d) : divRound .away n d = (2 * n + d) / (2 * d) := by
  have below := Nat.mod_lt n hd
  have whole : 2 * n + d = 2 * d * (n / d) + (2 * (n % d) + d) := by
    have parts := Nat.div_add_mod n d
    rw [mul_assoc]
    omega
  rw [whole, Nat.mul_add_div (by omega)]
  unfold divRound
  simp only [Tie.goesUp, and_true]
  split_ifs with up
  · have one : (2 * (n % d) + d) / (2 * d) = 1 := Nat.div_eq_of_lt_le (by omega) (by omega)
    rw [one]
  · have zero : (2 * (n % d) + d) / (2 * d) = 0 := Nat.div_eq_of_lt (by omega)
    rw [zero, add_zero]

/-- A number on a grid of even width that is nearest to a quotient rounds as the quotient does. -/
theorem divRound_away_twice (tie : Tie) (n d half : ℕ) (hd : 0 < d) (fine : d < 2 * half) :
    divRound .away (divRound tie (n * (2 * half)) d) (2 * half) = divRound .away n d := by
  have lower := divRound_lower tie (n * (2 * half)) d hd
  have upper := divRound_upper tie (n * (2 * half)) d
  rw [divRound_away_eq _ _ (by omega), divRound_away_eq _ _ hd]
  generalize divRound tie (n * (2 * half)) d = D at *
  have below := Nat.div_mul_le_self (2 * n + d) (2 * d)
  have above : 2 * n + d + 1 ≤ (2 * n + d) / (2 * d) * (2 * d) + 2 * d :=
    Nat.lt_div_mul_add (by omega)
  generalize (2 * n + d) / (2 * d) = q at *
  have grid : q * (2 * (2 * half)) = 4 * (q * half) := by ring
  apply Nat.div_eq_of_lt_le
  · -- the tie below `q` is on the grid, so a quotient from there on is not moved below it
    have scaled := Nat.mul_le_mul_right (2 * half) below
    have bound : d * (4 * (q * half)) ≤ d * (2 * D + 2 * half + 1) := by linarith
    have divided := Nat.le_of_mul_le_mul_left bound hd
    omega
  · -- a quotient below the tie above `q` keeps its distance, which the grid is finer than
    have scaled := Nat.mul_le_mul_right (2 * half) above
    have bound : d * (2 * D + 2 * half) < d * (4 * (q * half) + 4 * half) := by linarith
    have divided := Nat.lt_of_mul_lt_mul_left bound
    rw [add_mul, grid]
    omega

/-! ### The grid of 28 digits -/

theorem decimalWidth_pos (n : ℕ) : 0 < decimalWidth n := Nat.length_toDigits_pos

theorem lt_pow_decimalWidth (n : ℕ) : n < 10 ^ decimalWidth n :=
  (Nat.length_toDigits_le_iff (by decide) (decimalWidth_pos n)).mp (le_refl _)

theorem pow_decimalWidth_le (n : ℕ) (hn : 0 < n) : 10 ^ (decimalWidth n - 1) ≤ n := by
  by_cases one : decimalWidth n = 1
  · rw [one]
    exact hn
  · by_contra small
    have pos := decimalWidth_pos n
    have shorter : decimalWidth n ≤ decimalWidth n - 1 :=
      (Nat.length_toDigits_le_iff (by decide) (by omega)).mpr (not_le.mp small)
    omega

/-- The grid that a quotient of a short numerator is rounded to is finer than the denominator. -/
theorem exists_grid (n d : ℕ) (hn : 0 < n) (hd : 0 < d) (short : n < 10 ^ 27) :
    ∃ k : ℕ, leadingExponent n d - ((quotientDigits : ℤ) - 1) = -((k + 1 : ℕ) : ℤ) ∧
      d < 10 ^ (k + 1) := by
  unfold leadingExponent quotientDigits
  split_ifs with whole
  · have leading := pow_decimalWidth_le (n / d) (Nat.div_pos whole hd)
    have pos := decimalWidth_pos (n / d)
    generalize decimalWidth (n / d) = w at *
    have narrow : w - 1 < 27 :=
      (Nat.pow_lt_pow_iff_right (by decide)).mp
        (leading.trans_lt ((Nat.div_le_self n d).trans_lt short))
    refine ⟨27 - w, by omega, ?_⟩
    have bound : d * 10 ^ (w - 1) < 10 ^ (27 - w + 1) * 10 ^ (w - 1) :=
      calc d * 10 ^ (w - 1)
          ≤ d * (n / d) := Nat.mul_le_mul_left d leading
        _ ≤ n := Nat.mul_div_le n d
        _ < 10 ^ 27 := short
        _ = 10 ^ (27 - w + 1 + (w - 1)) := by rw [show 27 - w + 1 + (w - 1) = 27 by omega]
        _ = 10 ^ (27 - w + 1) * 10 ^ (w - 1) := pow_add 10 _ _
    exact Nat.lt_of_mul_lt_mul_right bound
  · have ceiling : d ≤ (d + n - 1) / n * n := by
      have above : d + n - 1 < (d + n - 1) / n * n + n := Nat.lt_div_mul_add hn
      omega
    have pos : 0 < (d + n - 1) / n := Nat.div_pos (by omega) hn
    generalize (d + n - 1) / n = c at *
    have leading := lt_pow_decimalWidth (c - 1)
    generalize decimalWidth (c - 1) = w at *
    refine ⟨w + 26, by omega, ?_⟩
    calc d
        ≤ c * n := ceiling
      _ ≤ 10 ^ w * n := Nat.mul_le_mul_right n (by omega)
      _ < 10 ^ w * 10 ^ 27 := Nat.mul_lt_mul_of_pos_left short (by positivity)
      _ = 10 ^ (w + 26 + 1) := (pow_add 10 w 27).symm

theorem divRound_away_le (n d : ℕ) (hd : 0 < d) : divRound .away n d ≤ n + 1 :=
  (divRound_le .away n d n hd (Nat.le_mul_of_pos_right n hd)).trans (Nat.le_succ n)

/-- A quotient of a short numerator is rounded as in one step. -/
theorem roundMagnitude_eq (n d : ℕ) (hn : 0 < n) (hd : 0 < d) (short : n < 10 ^ 27) :
    roundMagnitude n d = .ok (divRound .away n d) := by
  obtain ⟨k, exponent, fine⟩ := exists_grid n d hn hd short
  have even : 10 ^ (k + 1) = 2 * (5 * 10 ^ k) := by ring
  have once : divRound .away (divRound .even (n * 10 ^ (k + 1)) d) (10 ^ (k + 1)) =
      divRound .away n d := by
    rw [even] at fine ⊢
    exact divRound_away_twice .even n d (5 * 10 ^ k) hd fine
  have digits : divRound .away n d < 10 ^ quotientDigits := by
    have room := divRound_away_le n d hd
    unfold quotientDigits
    omega
  unfold roundMagnitude
  simp only [exponent, neg_neg, Int.toNat_natCast, Nat.pow_eq, once, digits, if_true]
  rw [if_neg (by omega)]

/-! ### The nearest integer -/

/-- The integer nearest to a number; a half goes away from zero. -/
def roundAway (q : ℚ) : ℤ := if q < 0 then -round (-q) else round q

theorem divRound_away_eq_round (n d : ℕ) (hd : 0 < d) :
    (divRound .away n d : ℤ) = round ((n : ℚ) / d) := by
  have shifted : (n : ℚ) / d + 1 / 2 = ((2 * n + d : ℕ) : ℚ) / ((2 * d : ℕ) : ℚ) := by
    have nonzero : (d : ℚ) ≠ 0 := by exact_mod_cast hd.ne'
    push_cast
    field_simp
  rw [round_eq, shifted, Rat.floor_natCast_div_natCast, divRound_away_eq n d hd, Int.natCast_div]

theorem roundAway_intCast (m : ℤ) : roundAway m = m := by
  unfold roundAway
  split_ifs
  · rw [← Int.cast_neg, round_intCast, neg_neg]
  · exact round_intCast m

/-- A number of a short numerator is rounded to the nearest integer. -/
theorem roundTicks_eq (q : ℚ) (short : q.num.natAbs < 10 ^ 27) :
    roundTicks q = .ok (roundAway q) := by
  unfold roundTicks
  by_cases whole : q.den = 1
  · rw [if_pos whole, ← (Rat.den_eq_one_iff q).mp whole, roundAway_intCast, Rat.num_intCast]
  · rw [if_neg whole]
    have nonzero : q.num ≠ 0 := by
      intro zero
      exact whole (by rw [Rat.num_eq_zero.mp zero]; rfl)
    have size : (q.num.natAbs : ℚ) / q.den = |q| := by
      rw [Rat.abs_def, Rat.divInt_eq_div, Int.cast_natCast, Int.cast_natCast]
    have magnitude := divRound_away_eq_round q.num.natAbs q.den q.den_pos
    rw [size] at magnitude
    simp only [roundMagnitude_eq _ _ (Int.natAbs_pos.mpr nonzero) q.den_pos short, magnitude,
      roundAway, Rat.num_neg]
    split_ifs with negative
    · rw [abs_of_neg negative]
    · rw [abs_of_nonneg (not_lt.mp negative)]

theorem abs_roundAway_sub_le (q : ℚ) : |(roundAway q : ℚ) - q| ≤ 1 / 2 := by
  unfold roundAway
  split_ifs
  · have mirrored : ((-round (-q) : ℤ) : ℚ) - q = -q - round (-q) := by
      push_cast
      ring
    rw [mirrored]
    exact abs_sub_round (-q)
  · rw [abs_sub_comm]
    exact abs_sub_round q

/-- The integer is nearest to a number, and a half goes away from zero. -/
structure Nearest (q : ℚ) (k : ℤ) : Prop where
  near : |(k : ℚ) - q| ≤ 1 / 2
  away : |(k : ℚ) - q| = 1 / 2 → |q| < |(k : ℚ)|

theorem Nearest.neg {q : ℚ} {k : ℤ} (h : Nearest q k) : Nearest (-q) (-k) := by
  have mirrored : |((-k : ℤ) : ℚ) - -q| = |(k : ℚ) - q| := by
    rw [← abs_neg]
    push_cast
    ring_nf
  constructor
  · rw [mirrored]
    exact h.near
  · rw [mirrored, Int.cast_neg, abs_neg, abs_neg]
    exact h.away

theorem nearest_round (q : ℚ) (hq : 0 ≤ q) : Nearest q (round q) := by
  constructor
  · rw [abs_sub_comm]
    exact abs_sub_round q
  · intro half
    have up : (round q : ℚ) = q + 1 / 2 := by
      have upper := Int.lt_floor_add_one (q + 1 / 2)
      rw [← round_eq] at upper
      rcases (abs_eq (by norm_num)).mp half with h | h <;> linarith
    rw [up, abs_of_nonneg hq, abs_of_nonneg (by linarith)]
    linarith

theorem nearest_roundAway (q : ℚ) : Nearest q (roundAway q) := by
  unfold roundAway
  split_ifs with negative
  · have mirrored := (nearest_round (-q) (by linarith)).neg
    rwa [neg_neg] at mirrored
  · exact nearest_round q (not_lt.mp negative)

theorem Nearest.unique {q : ℚ} {j k : ℤ} (hj : Nearest q j) (hk : Nearest q k) : j = k := by
  by_contra ne
  wlog lower : j < k generalizing j k
  · exact this hk hj (Ne.symm ne) (by omega)
  -- the two lie on either side of a half, and one of them is closer to zero
  have belowJ := (abs_le.mp hj.near).1
  have aboveK := (abs_le.mp hk.near).2
  have apart : (j : ℚ) + 1 ≤ k := by exact_mod_cast lower
  have halfJ : q = j + 1 / 2 := by linarith
  have halfK : q = k - 1 / 2 := by linarith
  have awayJ := hj.away (by rw [halfJ, sub_add_cancel_left, abs_neg, abs_of_pos (by norm_num)])
  have awayK := hk.away (by rw [halfK, sub_sub_cancel, abs_of_pos (by norm_num)])
  rcases abs_cases (j : ℚ) with ⟨absJ, signJ⟩ | ⟨absJ, signJ⟩
  · have growing := le_abs_self q
    linarith
  · have negative : (k : ℚ) ≤ 0 := by
      have beyond : j < 0 := by exact_mod_cast signJ
      have next : k = j + 1 := by
        have step : (k : ℚ) = (j + 1 : ℤ) := by
          push_cast
          linarith
        exact_mod_cast step
      exact_mod_cast (show k ≤ 0 by omega)
    have growing := neg_le_abs q
    rw [abs_of_nonpos negative] at awayK
    linarith

theorem nearest_iff (q : ℚ) (k : ℤ) : Nearest q k ↔ k = roundAway q :=
  ⟨fun h => h.unique (nearest_roundAway q), fun h => h ▸ nearest_roundAway q⟩

theorem roundAway_neg (q : ℚ) : roundAway (-q) = -roundAway q :=
  ((nearest_iff _ _).mp (nearest_roundAway q).neg).symm

theorem roundAway_mono : Monotone roundAway := by
  intro p q h
  have mono : ∀ a b : ℚ, a ≤ b → round a ≤ round b := by
    intro a b hab
    rw [round_eq, round_eq]
    exact Int.floor_mono (by linarith)
  have pos : ∀ a : ℚ, 0 ≤ a → 0 ≤ round a := by
    intro a ha
    simpa using mono 0 a ha
  unfold roundAway
  split_ifs with hp hq hq
  · exact neg_le_neg (mono (-q) (-p) (neg_le_neg h))
  · have below := pos (-p) (by linarith)
    have above := pos q (by linarith)
    omega
  · linarith
  · exact mono p q h

end Chronoplan
