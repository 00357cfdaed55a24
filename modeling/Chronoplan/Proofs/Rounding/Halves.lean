import Chronoplan.Proofs.Network.Scales

/-!
# Halves that are met too early

Rounding in two steps goes wrong in two ways. A number that lies below a half by no more than half
a unit of its last digit is moved onto the half and then away from zero, and a number of 28 digits
before the point has no digit left for a half, which then goes to the even side. All other numbers
are rounded to the nearest integer, up to the largest of 28 digits.
-/

set_option autoImplicit false

namespace Chronoplan

/-! ### What each step reaches -/

theorem le_divRound_even_iff (n d t : ℕ) (hd : 0 < d) :
    t ≤ divRound .even n d ↔ 2 * t * d < 2 * n + d ∨ 2 * t * d = 2 * n + d ∧ Even t := by
  have parts := Nat.div_add_mod n d
  have below := Nat.mod_lt n hd
  have scaled : n / d * d = d * (n / d) := Nat.mul_comm _ _
  unfold divRound
  simp only [Tie.goesUp, beq_iff_eq, ← Nat.odd_iff]
  generalize n / d = q at *
  generalize n % d = r at *
  rcases lt_trichotomy t (q + 1) with low | rfl | high
  · have bound : t * d ≤ q * d := Nat.mul_le_mul_right d (by omega)
    refine iff_of_true ?_ (.inl ?_)
    · split_ifs <;> omega
    · rw [mul_assoc]
      omega
  · have one : 2 * (q + 1) * d = 2 * (q * d) + 2 * d := by ring
    rw [one, Nat.even_add_one, Nat.not_even_iff_odd]
    split_ifs with up
    · refine iff_of_true le_rfl ?_
      rcases up with up | ⟨half, odd⟩
      · exact .inl (by omega)
      · exact .inr ⟨by omega, odd⟩
    · refine iff_of_false (by omega) ?_
      push Not at up
      rintro (more | ⟨half, odd⟩)
      · omega
      · exact up.2 (by omega) odd
  · have bound : (q + 2) * d ≤ t * d := Nat.mul_le_mul_right d (by omega)
    have two : (q + 2) * d = q * d + 2 * d := by ring
    refine iff_of_false ?_ ?_
    · split_ifs <;> omega
    · rw [mul_assoc]
      rintro (more | ⟨half, -⟩) <;> omega

theorem le_divRound_away_iff (n d t : ℕ) (hd : 0 < d) :
    t ≤ divRound .away n d ↔ 2 * t * d ≤ 2 * n + d := by
  rw [divRound_away_eq n d hd, Nat.le_div_iff_mul_le (by omega), mul_left_comm, mul_assoc]

section

variable (n d : ℕ) (hd : 0 < d) (t : ℕ)
include hd

theorem succ_le_divRound_away_iff :
    t + 1 ≤ divRound .away n d ↔ (t : ℚ) + 1 / 2 ≤ (n : ℚ) / d := by
  have positive : (0 : ℚ) < d := by exact_mod_cast hd
  rw [le_divRound_away_iff n d _ hd, le_div_iff₀ positive, ← Nat.cast_le (α := ℚ)]
  push_cast
  constructor <;> intro h <;> linarith

theorem succ_le_divRound_even_iff :
    t + 1 ≤ divRound .even n d ↔
      (t : ℚ) + 1 / 2 < (n : ℚ) / d ∨ (t : ℚ) + 1 / 2 = (n : ℚ) / d ∧ Odd t := by
  have positive : (0 : ℚ) < d := by exact_mod_cast hd
  rw [le_divRound_even_iff n d _ hd, Nat.even_add_one, Nat.not_even_iff_odd, lt_div_iff₀ positive,
    eq_div_iff positive.ne', ← Nat.cast_lt (α := ℚ), ← Nat.cast_inj (R := ℚ)]
  push_cast
  refine or_congr ?_ (and_congr_left' ?_) <;> constructor <;> intro h <;> linarith

/-- By way of a grid of even width a half is reached from half a unit of the grid below it. -/
theorem succ_le_twice_iff (half : ℕ) (hhalf : 0 < half) :
    t + 1 ≤ divRound .away (divRound .even (n * (2 * half)) d) (2 * half) ↔
      (t : ℚ) + 1 / 2 < (n : ℚ) / d + 1 / (2 * half : ℕ) / 2 ∨
        (t : ℚ) + 1 / 2 = (n : ℚ) / d + 1 / (2 * half : ℕ) / 2 ∧ Even half := by
  have positive : (0 : ℚ) < d := by exact_mod_cast hd
  have width : (0 : ℚ) < half := by exact_mod_cast hhalf
  -- the half above `t` is itself a point of the grid
  have tie : t + 1 ≤ divRound .away (divRound .even (n * (2 * half)) d) (2 * half) ↔
      (2 * t + 1) * half ≤ divRound .even (n * (2 * half)) d := by
    rw [le_divRound_away_iff _ _ _ (by omega), show 2 * (t + 1) * (2 * half) =
      2 * ((2 * t + 1) * half) + 2 * half by ring]
    omega
  have odd : Even ((2 * t + 1) * half) ↔ Even half := by
    simp [Nat.even_mul, parity_simps]
  have sum : (n : ℚ) / d + 1 / (2 * half : ℕ) / 2 = (4 * n * half + d) / (4 * half * d) := by
    push_cast
    field_simp
    ring
  have room : (0 : ℚ) < 4 * half * d := by positivity
  rw [tie, le_divRound_even_iff _ _ _ hd, odd, sum, lt_div_iff₀ room, eq_div_iff room.ne',
    ← Nat.cast_lt (α := ℚ), ← Nat.cast_inj (R := ℚ)]
  push_cast
  refine or_congr ?_ (and_congr_left' ?_) <;> constructor <;> intro h <;> linarith

end

/-! ### The leading digit -/

theorem log_eq_of_bounds (a : ℚ) (k : ℤ) (ha : 0 < a) (low : (10 : ℚ) ^ k ≤ a)
    (high : a < (10 : ℚ) ^ (k + 1)) : Int.log 10 a = k := by
  apply le_antisymm
  · have below := (Int.lt_zpow_iff_log_lt (R := ℚ) (b := 10) (by decide) ha).mp
      (by exact_mod_cast high : a < ((10 : ℕ) : ℚ) ^ (k + 1))
    omega
  · exact (Int.zpow_le_iff_le_log (R := ℚ) (b := 10) (by decide) ha).mp (by exact_mod_cast low)

theorem leadingExponent_eq_log (n d : ℕ) (hn : 0 < n) (hd : 0 < d) :
    leadingExponent n d = Int.log 10 ((n : ℚ) / d) := by
  have numerator : (0 : ℚ) < n := by exact_mod_cast hn
  have denominator : (0 : ℚ) < d := by exact_mod_cast hd
  symm
  apply log_eq_of_bounds _ _ (div_pos numerator denominator)
  · unfold leadingExponent
    split_ifs with whole
    · have leading := pow_decimalWidth_le (n / d) (Nat.div_pos whole hd)
      have pos := decimalWidth_pos (n / d)
      have exponent : (decimalWidth (n / d) : ℤ) - 1 = (decimalWidth (n / d) - 1 : ℕ) := by omega
      rw [exponent, zpow_natCast, le_div_iff₀ denominator]
      exact_mod_cast (Nat.mul_le_mul_right d leading).trans (Nat.div_mul_le_self n d)
    · have leading := lt_pow_decimalWidth ((d + n - 1) / n - 1)
      have ceiling : d + n - 1 < (d + n - 1) / n * n + n := Nat.lt_div_mul_add hn
      generalize (d + n - 1) / n = c at *
      rw [zpow_neg, zpow_natCast, inv_le_comm₀ (by positivity) (div_pos numerator denominator),
        inv_div, div_le_iff₀ numerator]
      have bound : c * n ≤ 10 ^ decimalWidth (c - 1) * n := Nat.mul_le_mul_right n (by omega)
      exact_mod_cast (show d ≤ c * n by omega).trans bound
  · unfold leadingExponent
    split_ifs with whole
    · have leading := lt_pow_decimalWidth (n / d)
      rw [sub_add_cancel, zpow_natCast, div_lt_iff₀ denominator]
      have above : n < (n / d + 1) * d := by
        rw [add_mul, one_mul]
        exact Nat.lt_div_mul_add hd
      exact_mod_cast above.trans_le (Nat.mul_le_mul_right d leading)
    · have floor := Nat.div_mul_le_self (d + n - 1) n
      have two : 2 ≤ (d + n - 1) / n := (Nat.le_div_iff_mul_le hn).mpr (by omega)
      generalize (d + n - 1) / n = c at *
      have leading := pow_decimalWidth_le (c - 1) (by omega)
      have pos := decimalWidth_pos (c - 1)
      have exponent : -(decimalWidth (c - 1) : ℤ) + 1 = -((decimalWidth (c - 1) - 1 : ℕ) : ℤ) := by
        omega
      rw [exponent, zpow_neg, zpow_natCast, lt_inv_comm₀ (div_pos numerator denominator)
        (by positivity), inv_div, lt_div_iff₀ numerator]
      have bound : 10 ^ (decimalWidth (c - 1) - 1) * n ≤ (c - 1) * n :=
        Nat.mul_le_mul_right n leading
      have less : (c - 1) * n < d := by
        rw [Nat.sub_mul, one_mul]
        omega
      exact_mod_cast bound.trans_lt less

/-! ### Numbers that slip -/

/-- The unit of the last of 28 significant digits. -/
def lastPlace (q : ℚ) : ℚ := 10 ^ (Int.log 10 |q| - 27)

/-- A half lies above the number, in half a unit of its last place or less, so that the first step
takes the number there; or the number is a half that its digits do not show. -/
def Slips (q : ℚ) : Prop :=
  ∃ t : ℕ,
    (|q| < 10 ^ 27 ∧ |q| < t + 1 / 2 ∧ (t : ℚ) + 1 / 2 < |q| + lastPlace q / 2) ∨
    (|q| < 10 ^ 26 ∧ (t : ℚ) + 1 / 2 = |q| + lastPlace q / 2) ∨
    (10 ^ 27 ≤ |q| ∧ (t : ℚ) + 1 / 2 = |q| ∧ Even t)

theorem lastPlace_pos (q : ℚ) : 0 < lastPlace q := by
  unfold lastPlace
  positivity

@[simp] theorem lastPlace_abs (q : ℚ) : lastPlace |q| = lastPlace q := by
  rw [lastPlace, lastPlace, abs_abs]

@[simp] theorem slips_abs (q : ℚ) : Slips |q| ↔ Slips q := by
  simp only [Slips, abs_abs, lastPlace_abs]

/-- By way of `k` decimals a number is rounded past an integer. -/
def Passes (k : ℕ) (a : ℚ) (t : ℕ) : Prop :=
  if k = 0 then (t : ℚ) + 1 / 2 < a ∨ (t : ℚ) + 1 / 2 = a ∧ Odd t
  else (t : ℚ) + 1 / 2 < a + 1 / 10 ^ k / 2 ∨ (t : ℚ) + 1 / 2 = a + 1 / 10 ^ k / 2 ∧ k ≠ 1

section

variable (a : ℚ) (ha : 0 < a) (k : ℕ) (hk : Int.log 10 a = 27 - k)
include ha hk

theorem lastPlace_eq : lastPlace a = 1 / 10 ^ k := by
  have exponent : (27 : ℤ) - k - 27 = -(k : ℤ) := by ring
  rw [lastPlace, abs_of_pos ha, hk, exponent, zpow_neg, zpow_natCast, one_div]

theorem lt_pow_iff_le_decimals (l : ℕ) : a < 10 ^ l ↔ 28 ≤ k + l := by
  have power : (10 : ℚ) ^ l = ((10 : ℕ) : ℚ) ^ (l : ℤ) := by
    rw [zpow_natCast]
    norm_cast
  rw [power, Int.lt_zpow_iff_log_lt (by decide) ha, hk]
  omega

/-- A number slips when the two steps and a single one disagree about a half. -/
theorem slips_iff : Slips a ↔ ∃ t : ℕ, ¬ (Passes k a t ↔ (t : ℚ) + 1 / 2 ≤ a) := by
  have whole : (10 : ℚ) ^ 27 ≤ a ↔ k = 0 := by
    rw [← not_lt, lt_pow_iff_le_decimals a ha k hk 27]
    omega
  have early : a < 10 ^ 26 ↔ k ≠ 0 ∧ k ≠ 1 := by
    rw [lt_pow_iff_le_decimals a ha k hk 26]
    omega
  have late : a < 10 ^ 27 ↔ k ≠ 0 := by rw [← not_le, whole]
  rw [Slips, abs_of_pos ha, lastPlace_eq a ha k hk, whole, early, late]
  refine exists_congr fun t => ?_
  unfold Passes
  by_cases last : k = 0
  · simp only [last, if_true, ← Nat.not_odd_iff_even]
    grind
  · have step : (0 : ℚ) < 1 / 10 ^ k := by positivity
    simp only [last, if_false]
    grind

theorem abs_sub_le_of_passes (m : ℕ) (hm : ∀ t : ℕ, t + 1 ≤ m ↔ Passes k a t) :
    |(m : ℚ) - a| ≤ 1 / 2 + lastPlace a / 2 := by
  have step : (0 : ℚ) < 1 / 10 ^ k := by positivity
  have above : ¬ Passes k a m := fun h => absurd ((hm m).mpr h) (by omega)
  have below : m ≠ 0 → Passes k a (m - 1) := fun h => (hm (m - 1)).mp (by omega)
  unfold Passes at above below
  rw [lastPlace_eq a ha k hk, abs_le]
  constructor
  · split_ifs at above <;> grind
  · cases m with
    | zero =>
      push_cast
      linarith
    | succ l =>
      have passed := below (by omega)
      simp only [Nat.add_sub_cancel] at passed
      push_cast
      split_ifs at passed <;> grind

/-- The largest integer of 28 digits is passed from the half above it on. -/
theorem passes_largest_iff : Passes k a (10 ^ 28 - 1) ↔ 10 ^ 28 - 1 / 2 ≤ a := by
  have decimals : a < 10 ^ 27 ↔ k ≠ 0 := by
    rw [lt_pow_iff_le_decimals a ha k hk 27]
    omega
  have top : ((10 ^ 28 - 1 : ℕ) : ℚ) + 1 / 2 = 10 ^ 28 - 1 / 2 := by norm_num
  have odd : Odd (10 ^ 28 - 1 : ℕ) := by decide
  unfold Passes
  rw [top]
  by_cases last : k = 0
  · simp only [last, if_true, odd, and_true]
    exact le_iff_lt_or_eq.symm
  · have small := decimals.mpr last
    have step : (1 : ℚ) / 10 ^ k ≤ 1 := by
      rw [div_le_one (by positivity)]
      exact one_le_pow₀ (by norm_num)
    simp only [last, if_false]
    constructor
    · rintro (h | ⟨h, -⟩) <;> linarith
    · intro h
      linarith

end

/-! ### The two steps -/

/-- The half step below the first power of ten whose exponent is too large; numbers from there on
are rounded up to it. -/
def overflowThreshold : ℚ := (10 ^ 28 - 1 / 2) * 10 ^ (largestExponent - 27)

theorem pow_le_overflowThreshold : (10 : ℚ) ^ 29 ≤ overflowThreshold := by
  have hundred : (10 : ℚ) ^ 2 ≤ 10 ^ (largestExponent - 27) :=
    pow_le_pow_right₀ (by norm_num) (by decide)
  unfold overflowThreshold
  linarith

theorem carries_iff (n d x : ℕ) (hd : 0 < d) : 10 ^ 28 ≤ divRound .even n (d * 10 ^ x) ↔
    (10 ^ 28 - 1 / 2) * 10 ^ x ≤ (n : ℚ) / d := by
  have odd : Odd (10 ^ 28 - 1 : ℕ) := by decide
  have top : ((10 ^ 28 - 1 : ℕ) : ℚ) + 1 / 2 = 10 ^ 28 - 1 / 2 := by norm_num
  have scaled : (n : ℚ) / (d * 10 ^ x : ℕ) = (n : ℚ) / d / 10 ^ x := by
    push_cast
    rw [div_div]
  have reach := succ_le_divRound_even_iff n (d * 10 ^ x) (by positivity) (10 ^ 28 - 1)
  rw [top, scaled, and_iff_left odd, ← le_iff_lt_or_eq, le_div_iff₀ (by positivity)] at reach
  exact reach

section

variable (n d : ℕ) (hn : 0 < n) (hd : 0 < d)
include hn hd

theorem roundMagnitude_passes (k : ℕ) (hk : Int.log 10 ((n : ℚ) / d) = 27 - k) :
    ∃ m : ℕ, roundMagnitude n d = (if m < 10 ^ 28 then .ok m else .error .tooPrecise) ∧
      ∀ t : ℕ, t + 1 ≤ m ↔ Passes k ((n : ℚ) / d) t := by
  refine ⟨divRound .away (divRound .even (n * 10 ^ k) d) (10 ^ k), ?_, fun t => ?_⟩
  · unfold roundMagnitude quotientDigits
    have exponent : leadingExponent n d - (((28 : ℕ) : ℤ) - 1) = -(k : ℤ) := by
      rw [leadingExponent_eq_log n d hn hd, hk]
      push_cast
      ring
    simp only [exponent, neg_neg, Int.toNat_natCast, Nat.pow_eq]
    rw [if_neg (by omega)]
  · unfold Passes
    cases k with
    | zero =>
      rw [if_pos rfl, pow_zero, mul_one, divRound_one]
      exact succ_le_divRound_even_iff n d hd t
    | succ k =>
      have even : 10 ^ (k + 1) = 2 * (5 * 10 ^ k) := by ring
      have parity : Even (5 * 10 ^ k) ↔ k + 1 ≠ 1 := by
        have five : ¬ Even 5 := by decide
        have ten : Even 10 := by decide
        simp [Nat.even_mul, Nat.even_pow, five, ten]
      have width : (1 : ℚ) / 10 ^ (k + 1) = 1 / (2 * (5 * 10 ^ k) : ℕ) := by
        rw [← even]
        push_cast
        rfl
      rw [if_neg (by omega), even, width, ← parity]
      exact succ_le_twice_iff n d hd t (5 * 10 ^ k) (by positivity)

theorem exists_decimals (small : (n : ℚ) / d < 10 ^ 28) :
    ∃ k : ℕ, Int.log 10 ((n : ℚ) / d) = 27 - k := by
  have positive : (0 : ℚ) < (n : ℚ) / d := by positivity
  have power : (10 : ℚ) ^ 28 = ((10 : ℕ) : ℚ) ^ (28 : ℤ) := by norm_num
  rw [power, Int.lt_zpow_iff_log_lt (by decide) positive] at small
  exact ⟨(27 - Int.log 10 ((n : ℚ) / d)).toNat, by omega⟩

/-- Digits that carry over raise the exponent of a large quotient past the largest one from the
threshold on. -/
theorem raised_iff (x : ℕ) (hx : Int.log 10 ((n : ℚ) / d) = 27 + x) :
    ((if divRound .even n (d * 10 ^ x) < 10 ^ 28 then 27 + (x : ℤ) else 27 + x + 1) >
      largestExponent) ↔ overflowThreshold ≤ (n : ℚ) / d := by
  have positive : (0 : ℚ) < (n : ℚ) / d := by positivity
  have low : (10 : ℚ) ^ (27 + x) ≤ (n : ℚ) / d := by
    have reached := Int.zpow_log_le_self (b := 10) (by decide) positive
    rw [hx] at reached
    exact_mod_cast reached
  have high : (n : ℚ) / d < 10 ^ (28 + x) := by
    have reached := Int.lt_zpow_succ_log_self (b := 10) (by decide) ((n : ℚ) / d)
    rw [hx, show (27 : ℤ) + x + 1 = (28 + x : ℕ) by push_cast; ring, zpow_natCast] at reached
    exact_mod_cast reached
  obtain ⟨top, htop⟩ : ∃ top : ℕ, largestExponent = 27 + top := ⟨999972, rfl⟩
  unfold overflowThreshold
  rw [htop, Nat.add_sub_cancel_left]
  rcases lt_trichotomy x top with small | rfl | large
  · refine iff_of_false ?_ (not_le.mpr ?_)
    · split_ifs <;> omega
    · calc (n : ℚ) / d
          < 10 ^ (28 + x) := high
        _ ≤ 10 ^ (27 + top) := pow_le_pow_right₀ (by norm_num) (by omega)
        _ = 10 ^ 27 * 10 ^ top := pow_add 10 27 top
        _ ≤ (10 ^ 28 - 1 / 2) * 10 ^ top := by gcongr; norm_num
  · rw [← carries_iff n d x hd]
    split_ifs <;> omega
  · refine iff_of_true ?_ ?_
    · split_ifs <;> omega
    · calc ((10 : ℚ) ^ 28 - 1 / 2) * 10 ^ top
          ≤ 10 ^ 28 * 10 ^ top := by gcongr; norm_num
        _ = 10 ^ (28 + top) := (pow_add 10 28 top).symm
        _ ≤ 10 ^ (27 + x) := pow_le_pow_right₀ (by norm_num) (by omega)
        _ ≤ (n : ℚ) / d := low

theorem roundMagnitude_of_large (large : (10 : ℚ) ^ 28 ≤ (n : ℚ) / d) :
    roundMagnitude n d = .error
      (if overflowThreshold ≤ (n : ℚ) / d then .exponentTooLarge else .tooPrecise) := by
  have positive : (0 : ℚ) < (n : ℚ) / d := by positivity
  have power : (10 : ℚ) ^ 28 = ((10 : ℕ) : ℚ) ^ (28 : ℤ) := by norm_num
  rw [power, Int.zpow_le_iff_le_log (by decide) positive] at large
  obtain ⟨x, hx⟩ : ∃ x : ℕ, Int.log 10 ((n : ℚ) / d) = 27 + x :=
    ⟨(Int.log 10 ((n : ℚ) / d) - 27).toNat, by omega⟩
  have exponent : (27 : ℤ) + x - (((28 : ℕ) : ℤ) - 1) = x := by push_cast; ring
  unfold roundMagnitude quotientDigits
  simp only [leadingExponent_eq_log n d hn hd, hx, exponent, Int.toNat_natCast, Nat.pow_eq]
  rw [if_pos (by omega)]
  simp only [raised_iff n d hn hd x hx]

/-- A quotient is refused from the half above the largest integer of 28 digits on. -/
theorem roundMagnitude_eq_error_iff (fault : Fault) : roundMagnitude n d = .error fault ↔
    fault = .tooPrecise ∧ 10 ^ 28 - 1 / 2 ≤ (n : ℚ) / d ∧ (n : ℚ) / d < overflowThreshold ∨
      fault = .exponentTooLarge ∧ overflowThreshold ≤ (n : ℚ) / d := by
  have positive : (0 : ℚ) < (n : ℚ) / d := by positivity
  have threshold := pow_le_overflowThreshold
  rcases lt_or_ge ((n : ℚ) / d) (10 ^ 28) with small | large
  · obtain ⟨k, hk⟩ := exists_decimals n d hn hd small
    obtain ⟨m, hm, passes⟩ := roundMagnitude_passes n d hn hd k hk
    have below : (n : ℚ) / d < overflowThreshold := by linarith
    rw [hm, ← passes_largest_iff _ positive k hk, ← passes]
    split_ifs with fits
    · simp only [not_le.mpr below, and_false, or_false, false_iff]
      omega
    · rw [and_iff_left below, and_iff_left (by omega), iff_false_intro (not_le.mpr below),
        and_false, or_false, Except.error.injEq, eq_comm]
  · have half : (10 : ℚ) ^ 28 - 1 / 2 ≤ (n : ℚ) / d := by linarith
    rw [roundMagnitude_of_large n d hn hd large]
    split_ifs with top
    · simp [top, not_lt.mpr top, eq_comm]
    · rw [iff_false_intro top, and_false, or_false, and_iff_left ⟨half, not_le.mp top⟩,
        Except.error.injEq, eq_comm]

theorem roundMagnitude_eq_ok (m : ℕ) (h : roundMagnitude n d = .ok m) :
    (m = divRound .away n d ↔ ¬ Slips ((n : ℚ) / d)) ∧
      |(m : ℚ) - (n : ℚ) / d| ≤ 1 / 2 + lastPlace ((n : ℚ) / d) / 2 := by
  have positive : (0 : ℚ) < (n : ℚ) / d := by positivity
  have small : (n : ℚ) / d < 10 ^ 28 := by
    by_contra large
    rw [roundMagnitude_of_large n d hn hd (not_lt.mp large)] at h
    cases h
  obtain ⟨k, hk⟩ := exists_decimals n d hn hd small
  obtain ⟨m', hm, passes⟩ := roundMagnitude_passes n d hn hd k hk
  have same : m' = m := by
    rw [hm] at h
    split_ifs at h
    exact Except.ok.inj h
  subst same
  refine ⟨?_, abs_sub_le_of_passes _ positive k hk m' passes⟩
  have reach := succ_le_divRound_away_iff n d hd
  rw [slips_iff _ positive k hk, not_exists_not]
  simp only [← passes, ← reach]
  constructor
  · rintro rfl t
    rfl
  · intro agree
    have upper := agree (m' - 1)
    have lower := agree (divRound .away n d - 1)
    omega

end

/-! ### Fractions -/

section

variable (q : ℚ) (fraction : q.den ≠ 1)

theorem natAbs_num_div_den : (q.num.natAbs : ℚ) / q.den = |q| := by
  rw [Rat.abs_def, Rat.divInt_eq_div, Int.cast_natCast, Int.cast_natCast]

include fraction

theorem natAbs_num_pos : 0 < q.num.natAbs := by
  apply Int.natAbs_pos.mpr
  intro zero
  exact fraction (by rw [Rat.num_eq_zero.mp zero]; rfl)

theorem roundTicks_eq_error_iff (fault : Fault) : roundTicks q = .error fault ↔
    fault = .tooPrecise ∧ 10 ^ 28 - 1 / 2 ≤ |q| ∧ |q| < overflowThreshold ∨
      fault = .exponentTooLarge ∧ overflowThreshold ≤ |q| := by
  have refused := roundMagnitude_eq_error_iff _ _ (natAbs_num_pos q fraction) q.den_pos fault
  rw [natAbs_num_div_den] at refused
  rw [← refused, roundTicks, if_neg fraction]
  cases roundMagnitude q.num.natAbs q.den <;> simp

theorem roundTicks_returns (small : |q| < 10 ^ 28 - 1 / 2) : ∃ k, roundTicks q = .ok k := by
  have threshold := pow_le_overflowThreshold
  cases h : roundTicks q with
  | error fault =>
    rcases (roundTicks_eq_error_iff q fraction fault).mp h with ⟨-, large, -⟩ | ⟨-, large⟩ <;>
      linarith
  | ok k => exact ⟨k, rfl⟩

theorem roundTicks_eq_ok (k : ℤ) (h : roundTicks q = .ok k) :
    (Nearest q k ↔ ¬ Slips q) ∧ |(k : ℚ) - q| ≤ 1 / 2 + lastPlace q / 2 := by
  unfold roundTicks at h
  rw [if_neg fraction] at h
  cases hm : roundMagnitude q.num.natAbs q.den with
  | error fault =>
    rw [hm] at h
    cases h
  | ok m =>
    obtain ⟨once, close⟩ :=
      roundMagnitude_eq_ok _ _ (natAbs_num_pos q fraction) q.den_pos m hm
    rw [natAbs_num_div_den, slips_abs] at once
    rw [natAbs_num_div_den, lastPlace_abs] at close
    have magnitude := divRound_away_eq_round q.num.natAbs q.den q.den_pos
    rw [natAbs_num_div_den] at magnitude
    rw [hm] at h
    simp only [Except.ok.injEq, Rat.num_neg] at h
    rw [nearest_iff, ← once, ← h, roundAway]
    split_ifs with negative
    · rw [abs_of_neg negative] at magnitude close
      constructor
      · rw [← magnitude]
        omega
      · have mirrored : ((-m : ℤ) : ℚ) - q = -((m : ℚ) - -q) := by
          push_cast
          ring
        rw [mirrored, abs_neg]
        exact close
    · rw [abs_of_nonneg (not_lt.mp negative)] at magnitude close
      exact ⟨by rw [← magnitude]; omega, by exact_mod_cast close⟩

end

/-! ### Small denominators -/

/-- No half lies closer to a number than half a part of its denominator. -/
theorem not_slips_of_den (q : ℚ) (small : |q| < 10 ^ 27) (fine : q.den * lastPlace q < 1) :
    ¬ Slips q := by
  have den : (0 : ℚ) < q.den := by exact_mod_cast q.den_pos
  have step := lastPlace_pos q
  have apart : ∀ t : ℕ, |q| < t + 1 / 2 → |q| + lastPlace q / 2 < t + 1 / 2 := by
    intro t ht
    rw [← natAbs_num_div_den, div_lt_iff₀ den] at ht
    have below : 2 * q.num.natAbs + 1 ≤ (2 * t + 1) * q.den := by
      have twice : (2 * q.num.natAbs : ℚ) < (2 * t + 1) * q.den := by linarith
      exact_mod_cast twice
    have room : (2 * q.num.natAbs + 1 : ℚ) ≤ (2 * t + 1) * q.den := by exact_mod_cast below
    rw [← natAbs_num_div_den, ← mul_lt_mul_iff_left₀ den, add_mul, div_mul_cancel₀ _ den.ne']
    linarith
  rintro ⟨t, ⟨-, above, reached⟩ | ⟨-, reached⟩ | ⟨large, -⟩⟩
  · exact absurd (apart t above) (not_lt.mpr reached.le)
  · exact absurd (apart t (by linarith)) (by linarith)
  · exact absurd small (not_lt.mpr large)

/-- A number of a small denominator is rounded to the nearest integer. -/
theorem roundTicks_nearest_of_den (q : ℚ) (small : |q| < 10 ^ 27)
    (fine : q.den * lastPlace q < 1) : ∃ k, roundTicks q = .ok k ∧ Nearest q k := by
  by_cases whole : q.den = 1
  · have integer : (q.num : ℚ) = q := (Rat.den_eq_one_iff q).mp whole
    refine ⟨q.num, by rw [roundTicks, if_pos whole], ?_⟩
    rw [nearest_iff]
    conv_rhs => rw [← integer, roundAway_intCast]
  · obtain ⟨k, hk⟩ := roundTicks_returns q whole (by linarith)
    exact ⟨k, hk, (roundTicks_eq_ok q whole k hk).1.mpr (not_slips_of_den q small fine)⟩

/-! ### Scaled bounds -/

theorem lastPlace_le (q : ℚ) (small : |q| < 10 ^ 17) : lastPlace q ≤ 1 / 10 ^ 11 := by
  have exponent : Int.log 10 |q| ≤ 16 := by
    by_cases zero : q = 0
    · rw [zero, abs_zero, Int.log_zero_right]
      decide
    · have power : (10 : ℚ) ^ 17 = ((10 : ℕ) : ℚ) ^ (17 : ℤ) := by norm_num
      rw [power, Int.lt_zpow_iff_log_lt (by decide) (abs_pos.mpr zero)] at small
      omega
  calc lastPlace q
      ≤ 10 ^ (-11 : ℤ) := zpow_le_zpow_right₀ (by norm_num) (by omega)
    _ = 1 / 10 ^ 11 := by norm_num

section

variable (b : ℤ) (s t : Scale)

theorem Scale.mul_factor_eq : b * s.factor t = Rat.divInt (b * s.length) t.length := by
  rw [Scale.factor, Rat.mkRat_eq_div, Rat.divInt_eq_div, mul_div_assoc']
  push_cast
  rfl

theorem Scale.den_mul_factor_le : (b * s.factor t).den ≤ 86400000000 := by
  rw [Scale.mul_factor_eq]
  have dvd : ((Rat.divInt (b * s.length) t.length).den : ℤ) ∣ t.length := Rat.den_dvd _ _
  exact (Nat.le_of_dvd t.length_pos (Int.natCast_dvd_natCast.mp dvd)).trans t.length_le

/-- Products of moderate size are rounded to the nearest integer. -/
theorem roundTicks_scaled (small : |b * s.factor t| < 10 ^ 17) :
    ∃ k, roundTicks (b * s.factor t) = .ok k ∧ Nearest (b * s.factor t) k := by
  have den : ((b * s.factor t).den : ℚ) ≤ 86400000000 := by
    exact_mod_cast Scale.den_mul_factor_le b s t
  have place := lastPlace_le _ small
  have positive := lastPlace_pos (b * s.factor t)
  refine roundTicks_nearest_of_den _ (by linarith) ?_
  calc ((b * s.factor t).den : ℚ) * lastPlace (b * s.factor t)
      ≤ 86400000000 * (1 / 10 ^ 11) := by gcongr
    _ < 1 := by norm_num

theorem addable_of_scaled (small : |b * s.factor t| < 10 ^ 17) : Addable b := by
  have long : (t.length : ℚ) ≤ 86400000000 := by exact_mod_cast t.length_le
  have short : (1 : ℚ) ≤ s.length := by exact_mod_cast s.length_pos
  have target : (0 : ℚ) < t.length := by exact_mod_cast t.length_pos
  rw [Scale.factor, Rat.mkRat_eq_div, abs_mul, abs_div, Int.cast_natCast, Nat.abs_cast,
    Nat.abs_cast, mul_div_assoc', div_lt_iff₀ target] at small
  have size : |(b : ℚ)| ≤ 10 ^ 17 * 86400000000 :=
    calc |(b : ℚ)|
        ≤ |(b : ℚ)| * s.length := le_mul_of_one_le_right (abs_nonneg _) short
      _ ≤ 10 ^ 17 * t.length := small.le
      _ ≤ 10 ^ 17 * 86400000000 := by gcongr
  have bits : |b| ≤ ((10 ^ 17 * 86400000000 : ℕ) : ℤ) := by exact_mod_cast size
  rw [Int.abs_eq_natAbs, Int.ofNat_le] at bits
  exact addable_of_natAbs_le b (bits.trans (by decide +kernel))

end

theorem scaleBound_int_eq_ok_iff (b : ℤ) (q : ℚ) (x : Number) : scaleBound (.int b) q = .ok x ↔
    Addable b ∧ ∃ k, roundTicks (b * q) = .ok k ∧ x = .int k := by
  unfold scaleBound Number.toBinary64 Addable
  cases near : (Number.int b).toBinary64? with
  | none => simp [orFault]
  | some z =>
    have finite : z.isInfinite = false := nearest_not_isInfinite b z near
    simp only [orFault, ok_bind, finite, Bool.false_eq_true, if_false, Number.toRatio,
      bind_eq_ok_iff, pure_eq_ok, Except.ok.injEq, Option.isSome_some, true_and]
    exact exists_congr fun k => and_congr_right' eq_comm

/-- An integer is kept, and a fraction is refused exactly from the half above the largest integer
of 28 digits on, for its exponent from the threshold on. Any other is rounded to the nearest
integer unless it slips, and also then misses it by no more than its digits do; what a bound of
moderate size is scaled to does not slip. -/
theorem roundTicks_nearest_iff (q : ℚ) (b : ℤ) (s t : Scale) :
    (q.den = 1 → roundTicks q = .ok q.num) ∧
    (q.den ≠ 1 →
      (∀ fault, roundTicks q = .error fault ↔
        fault = .tooPrecise ∧ 10 ^ 28 - 1 / 2 ≤ |q| ∧ |q| < overflowThreshold ∨
          fault = .exponentTooLarge ∧ overflowThreshold ≤ |q|) ∧
      (|q| < 10 ^ 28 - 1 / 2 → ∃ k, roundTicks q = .ok k ∧ (Nearest q k ↔ ¬ Slips q) ∧
        |(k : ℚ) - q| ≤ 1 / 2 + lastPlace q / 2)) ∧
    (∀ x, scaleBound (.int b) (s.factor t) = .ok x ↔
      Addable b ∧ ∃ k, roundTicks (b * s.factor t) = .ok k ∧ x = .int k) ∧
    (|b * s.factor t| < 10 ^ 17 → ∃ k, scaleBound (.int b) (s.factor t) = .ok (.int k) ∧
      Nearest (b * s.factor t) k) := by
  refine ⟨fun whole => ?_, fun fraction => ⟨roundTicks_eq_error_iff q fraction, fun small => ?_⟩,
    scaleBound_int_eq_ok_iff b _, fun small => ?_⟩
  · have rounded := roundTicks_int q.num
    rwa [Rat.den_eq_one_iff q |>.mp whole] at rounded
  · obtain ⟨k, hk⟩ := roundTicks_returns q fraction small
    exact ⟨k, hk, roundTicks_eq_ok q fraction k hk⟩
  · obtain ⟨k, hk, nearest⟩ := roundTicks_scaled b s t small
    exact ⟨k, (scaleBound_int_eq_ok_iff b _ _).mpr
      ⟨addable_of_scaled b s t small, k, hk, rfl⟩, nearest⟩

theorem roundTicks_thirds :
    ((7 / 3 : ℚ).den ≠ 1 ∧ |(7 / 3 : ℚ)| < 10 ^ 28 - 1 / 2 ∧ ∃ k, roundTicks (7 / 3) = .ok k) ∧
      |((50 : ℤ) : ℚ) * (Scale.unit .second).factor (.unit .minute)| < 10 ^ 17 ∧
      ∃ k, scaleBound (.int 50) ((Scale.unit .second).factor (.unit .minute)) = .ok (.int k) ∧
        Nearest ((50 : ℤ) * (Scale.unit .second).factor (.unit .minute)) k := by
  have fraction : (7 / 3 : ℚ).den ≠ 1 := by decide +kernel
  have small : |(7 / 3 : ℚ)| < 10 ^ 28 - 1 / 2 := by decide +kernel
  have moderate : |((50 : ℤ) : ℚ) * (Scale.unit .second).factor (.unit .minute)| < 10 ^ 17 := by
    decide +kernel
  obtain ⟨-, rounds, -, scales⟩ := roundTicks_nearest_iff (7 / 3) 50 (.unit .second) (.unit .minute)
  obtain ⟨k, hk, -⟩ := (rounds fraction).2 small
  exact ⟨⟨fraction, small, k, hk⟩, moderate, scales moderate⟩

/-- A number just below a half is rounded up, a half of many digits is refused, and a bound of
microseconds becomes a day too many. -/
theorem roundTicks_not_nearest :
    (roundTicks (499999999999999999999999999999 / 10 ^ 30) = .ok 1 ∧
      ¬ Nearest (499999999999999999999999999999 / 10 ^ 30) 1) ∧
    roundTicks (20000000000000000000000000001 / 2) = .error .tooPrecise ∧
    scaleBound (.int 8640000000000000043199999999)
        ((Scale.unit .microsecond).factor (.unit .day)) = .ok (.int 100000000000000001) ∧
      Nearest ((8640000000000000043199999999 : ℤ) *
        (Scale.unit .microsecond).factor (.unit .day)) 100000000000000000 := by
  refine ⟨⟨toOption_eq_some_iff.mp (by decide +kernel), fun h => ?_⟩, ?_,
    toOption_eq_some_iff.mp (by decide +kernel), ?_⟩
  · exact absurd h.near (by decide +kernel)
  · have threshold := pow_le_overflowThreshold
    refine (roundTicks_eq_error_iff _ (by decide +kernel) _).mpr
      (.inl ⟨rfl, by decide +kernel, lt_of_lt_of_le ?_ threshold⟩)
    decide +kernel
  · exact ⟨by decide +kernel, fun half => absurd half (by decide +kernel)⟩

end Chronoplan
