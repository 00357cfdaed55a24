import Chronoplan.Proofs.Network.Mirror
import Chronoplan.Proofs.Rounding

/-!
# Sums that are rounded

A sum of two numbers is exact, or the rounded sum of what both are as binary64 numbers. Rounding
moves no number past an integer of 53 bits, so a sum of numbers that do not lie above two integers
does not lie above the sum of these.
-/

set_option autoImplicit false

namespace Chronoplan

/-! ### Rounding to an integer or past it -/

namespace Binary64

/-- A quotient whose last bit is no fraction has 53 bits before the point. -/
theorem mul_pow_le_of_unitExponent (n d : ℕ) (hn : n ≠ 0) (he : 0 ≤ unitExponent n d) :
    d * Nat.pow 2 ((unitExponent n d).toNat + 52) ≤ n := by
  have above : d < 2 ^ (d.log2 + 1) := Nat.lt_log2_self
  have below : 2 ^ n.log2 ≤ n := Nat.log2_self_le hn
  obtain ⟨g, guess⟩ : ∃ g : ℤ, (n.log2 : ℤ) - d.log2 - 52 = g := ⟨_, rfl⟩
  unfold unitExponent at he ⊢
  simp only [ge_iff_le, guess] at he ⊢
  by_cases hg : 0 ≤ g
  · simp only [hg, if_true] at he ⊢
    by_cases large : d * Nat.pow 2 (g.toNat + 52) ≤ n
    · simp only [large, decide_true, if_true] at he ⊢
      rwa [max_eq_left (by omega)]
    · simp only [large, decide_false, Bool.false_eq_true, if_false] at he ⊢
      -- one bit less than expected, since the quotient of the leading bits is less than one
      have exponent : d.log2 + 1 + ((max (g - 1) (-1074)).toNat + 52) = n.log2 := by omega
      calc d * Nat.pow 2 ((max (g - 1) (-1074)).toNat + 52)
          ≤ 2 ^ (d.log2 + 1) * 2 ^ ((max (g - 1) (-1074)).toNat + 52) :=
            Nat.mul_le_mul_right _ above.le
        _ = 2 ^ n.log2 := by rw [← pow_add, exponent]
        _ ≤ n := below
  · exfalso
    split_ifs at he <;> omega

section Fraction

variable (n d k e : ℕ) (hd : 0 < d)
include hd

theorem mkRat_divRound_le (h : n ≤ k * d) :
    mkRat (divRound .even (n * Nat.pow 2 e) d) (Nat.pow 2 e) ≤ k := by
  have positive : 0 < Nat.pow 2 e := Nat.pow_pos (by decide)
  have scaled : n * Nat.pow 2 e ≤ k * Nat.pow 2 e * d :=
    calc n * Nat.pow 2 e
        ≤ k * d * Nat.pow 2 e := Nat.mul_le_mul_right _ h
      _ = k * Nat.pow 2 e * d := by ring
  have rounded := divRound_le .even _ d _ hd scaled
  rw [Rat.mkRat_eq_div, div_le_iff₀ (by exact_mod_cast positive)]
  exact_mod_cast rounded

theorem le_mkRat_divRound (h : k * d ≤ n) :
    k ≤ mkRat (divRound .even (n * Nat.pow 2 e) d) (Nat.pow 2 e) := by
  have positive : 0 < Nat.pow 2 e := Nat.pow_pos (by decide)
  have scaled : k * Nat.pow 2 e * d ≤ n * Nat.pow 2 e :=
    calc k * Nat.pow 2 e * d
        = k * d * Nat.pow 2 e := by ring
      _ ≤ n * Nat.pow 2 e := Nat.mul_le_mul_right _ h
  have rounded := le_divRound .even _ d _ hd scaled
  rw [Rat.mkRat_eq_div, le_div_iff₀ (by exact_mod_cast positive)]
  exact_mod_cast rounded

end Fraction

section Quotient

variable (n d k : ℕ) (hd : 0 < d) (hk : k < 2 ^ 53)
include hd hk

theorem ofQuotient_le (h : n ≤ k * d) : ∃ q : ℚ, ofQuotient n d = .finite q ∧ q ≤ k := by
  unfold ofQuotient
  by_cases hn : n = 0
  · exact ⟨0, by simp [hn], by positivity⟩
  · rw [if_neg hn]
    by_cases he : unitExponent n d ≥ 0
    · have exact : (unitExponent n d).toNat = 0 := by
        by_contra later
        have reach := (mul_pow_le_of_unitExponent n d hn he).trans (h.trans_eq (mul_comm k d))
        have power : 2 ^ 53 ≤ 2 ^ ((unitExponent n d).toNat + 52) :=
          Nat.pow_le_pow_right (by decide) (by omega)
        exact absurd (power.trans (Nat.le_of_mul_le_mul_left reach hd)) (by omega)
      have rounded := divRound_le .even n d k hd h
      have limit : ∀ e, 53 ≤ e → 2 ^ 53 ≤ Nat.pow 2 e :=
        fun e he => Nat.pow_le_pow_right (by decide) he
      have small : ¬ divRound .even n d ≥ Nat.pow 2 1024 :=
        not_le.mpr (rounded.trans_lt (hk.trans_le (limit 1024 (by decide))))
      refine ⟨divRound .even n d, ?_, by exact_mod_cast rounded⟩
      have one : Nat.pow 2 0 = 1 := rfl
      simp only [he, exact, one, mul_one, if_true]
      rw [if_neg small]
    · simp only [he, if_false]
      exact ⟨_, rfl, mkRat_divRound_le n d k _ hd h⟩

theorem le_ofQuotient (h : k * d ≤ n) :
    ofQuotient n d = .posInf ∨ ∃ q : ℚ, ofQuotient n d = .finite q ∧ k ≤ q := by
  unfold ofQuotient
  by_cases hn : n = 0
  · have zero : k = 0 := by
      rw [hn] at h
      exact (Nat.mul_eq_zero.mp (Nat.le_zero.mp h)).resolve_right hd.ne'
    exact .inr ⟨0, by simp [hn], by simp [zero]⟩
  · rw [if_neg hn]
    by_cases he : unitExponent n d ≥ 0
    · have rounded : k ≤ divRound .even n (d * Nat.pow 2 (unitExponent n d).toNat) *
          Nat.pow 2 (unitExponent n d).toNat := by
        have reach := mul_pow_le_of_unitExponent n d hn he
        cases he' : (unitExponent n d).toNat with
        | zero => simpa using le_divRound .even n d k hd h
        | succ e =>
          -- a quotient of more than 53 bits is rounded to one of at least 53
          rw [he'] at reach
          have positive : 0 < d * Nat.pow 2 (e + 1) := Nat.mul_pos hd (Nat.pow_pos (by decide))
          have bits : 2 ^ 52 ≤ divRound .even n (d * Nat.pow 2 (e + 1)) := by
            refine le_divRound .even n _ _ positive (le_of_eq_of_le ?_ reach)
            simp only [Nat.pow_eq]
            ring
          have twice : 2 ^ 1 ≤ Nat.pow 2 (e + 1) :=
            Nat.pow_le_pow_right (by decide) (Nat.le_add_left 1 e)
          have product := Nat.mul_le_mul bits twice
          omega
      simp only [he, if_true]
      split_ifs with huge
      · exact .inl rfl
      · exact .inr ⟨_, rfl, by exact_mod_cast rounded⟩
    · simp only [he, if_false]
      exact .inr ⟨_, rfl, le_mkRat_divRound n d k _ hd h⟩

end Quotient

end Binary64

theorem Place.trichotomy (p q : Place) : p.lt q = true ∨ p = q ∨ q.lt p = true := by
  cases p <;> cases q <;> simp [lt, lt_trichotomy]

namespace Number

/-- The number does not lie above an integer. -/
def AtMost (x : Number) (k : ℤ) : Prop := x.le (.int k) = true

section AtMost

variable (k : ℤ)

theorem atMost_iff (x : Number) :
    x.AtMost k ↔ ∃ p, x.place? = some p ∧ (Place.line k).lt p = false := by
  rw [AtMost, le, Bool.or_eq_true, lt_iff_place?, eq_iff_place?]
  constructor
  · rintro (⟨p, q, hp, ⟨⟩, below⟩ | ⟨p, hp, ⟨⟩⟩)
    · refine ⟨p, hp, Bool.eq_false_iff.mpr fun above => ?_⟩
      have loop := Place.lt_trans _ _ _ below above
      rw [Place.lt_irrefl] at loop
      cases loop
    · exact ⟨_, hp, Place.lt_irrefl _⟩
  · rintro ⟨p, hp, below⟩
    rcases p.trichotomy (.line k) with less | same | more
    · exact .inl ⟨p, _, hp, rfl, less⟩
    · exact .inr ⟨p, hp, same ▸ rfl⟩
    · rw [below] at more
      cases more

theorem atMost_of_line {x : Number} {q : ℚ} (hx : x.place? = some (.line q)) :
    x.AtMost k ↔ q ≤ k := by
  rw [atMost_iff, hx]
  simp [Place.lt]

@[simp] theorem atMost_int (m : ℤ) : (int m).AtMost k ↔ m ≤ k := by
  rw [AtMost, le_int, decide_eq_true_eq]

@[simp] theorem atMost_finite (q : ℚ) : (float (.finite q)).AtMost k ↔ q ≤ k :=
  atMost_of_line k rfl

@[simp] theorem atMost_negZero : (float .negZero).AtMost k ↔ 0 ≤ k :=
  (atMost_of_line k rfl).trans (by exact_mod_cast Iff.rfl)

@[simp] theorem atMost_negInf : (float .negInf).AtMost k := rfl

@[simp] theorem not_atMost_posInf : ¬ (float .posInf).AtMost k := nofun

@[simp] theorem not_atMost_nan (mark : ℕ) : ¬ (float (.nan mark)).AtMost k := nofun

variable {k}

theorem Integral.atMost_of_not_le {x : Number} (hx : x.Integral) (h : ¬ (int k).le x = true) :
    x.AtMost (k - 1) := by
  obtain rfl | rfl | ⟨m, rfl⟩ := hx.cases
  · exact absurd rfl h
  · exact atMost_negInf _
  · rw [le_int, decide_eq_true_eq] at h
    rw [atMost_int]
    omega

theorem Integral.neg_atMost_of_not_le {x : Number} (hx : x.Integral) (h : ¬ x.le (int k) = true) :
    x.neg.AtMost (-k - 1) := by
  obtain rfl | rfl | ⟨m, rfl⟩ := hx.cases
  · exact atMost_negInf _
  · exact absurd rfl h
  · rw [le_int, decide_eq_true_eq] at h
    rw [neg_int, atMost_int]
    omega

end AtMost

/-- Rounding does not move a number past an integer of 53 bits. -/
theorem atMost_ofRat (q : ℚ) (k : ℤ) (hk : k.natAbs < 2 ^ 53) (h : q ≤ k) :
    (float (Binary64.ofRat q)).AtMost k := by
  have cross : q.num ≤ k * q.den := by
    rw [← Rat.num_div_den q, div_le_iff₀ (by exact_mod_cast q.pos)] at h
    exact_mod_cast h
  unfold Binary64.ofRat
  by_cases negative : q.num < 0
  · simp only [negative, if_true]
    have magnitude : (-k).toNat * q.den ≤ q.num.natAbs := by
      rcases Int.le_total k 0 with low | high
      · zify
        rw [Int.toNat_of_nonneg (by omega), abs_of_neg negative]
        linarith
      · simp [Int.toNat_of_nonpos (neg_nonpos.mpr high)]
    rcases Binary64.le_ofQuotient _ q.den (-k).toNat q.pos (by omega) magnitude with
      huge | ⟨p, hp, below⟩
    · simp [huge, Binary64.neg]
    · have low : -p ≤ k := by
        have reach : ((-k : ℤ) : ℚ) ≤ ((-k).toNat : ℚ) := by exact_mod_cast Int.self_le_toNat (-k)
        push_cast at reach
        linarith
      by_cases zero : p = 0
      · rw [zero, neg_zero] at low
        simpa [hp, zero, Binary64.neg] using low
      · simpa [hp, zero, Binary64.neg] using low
  · simp only [negative, if_false]
    have positive : 0 ≤ k := by
      by_contra below
      have : k * q.den < 0 := mul_neg_of_neg_of_pos (by omega) (by exact_mod_cast q.pos)
      omega
    obtain ⟨m, rfl⟩ := Int.eq_ofNat_of_zero_le positive
    obtain ⟨p, hp, high⟩ := Binary64.ofQuotient_le q.num.natAbs q.den m q.pos (by omega) (by
      zify
      rwa [abs_of_nonneg (by omega)])
    rw [hp, atMost_finite]
    exact_mod_cast high

section Sum

variable {x y z : Number} {a b k : ℤ}

theorem AtMost.toBinary64? (hx : x.AtMost a) (ha : a.natAbs < 2 ^ 53) {u : Binary64}
    (h : x.toBinary64? = some u) : (float u).AtMost a := by
  have near : ∀ q : ℚ, q ≤ a → Number.toBinary64?.nearest q = some u → (float u).AtMost a := by
    intro q hq h
    have same : Binary64.ofRat q = u := by
      unfold Number.toBinary64?.nearest at h
      split at h <;> simp_all
    rw [← same]
    exact atMost_ofRat q a ha hq
  cases x with
  | bool t =>
    cases h
    exact (atMost_finite a _).mpr ((atMost_of_line a rfl).mp hx)
  | int m => exact near m ((atMost_of_line a rfl).mp hx) h
  | float w =>
    cases h
    exact hx
  | ratio q => exact near q ((atMost_of_line a rfl).mp hx) h

/-- The sum of two numbers in binary64 does not lie above an integer that the integers above them
do not exceed. -/
theorem atMost_add {u v : Binary64} (hu : (float u).AtMost a) (hv : (float v).AtMost b)
    (hk : k.natAbs < 2 ^ 53) (sum : a + b ≤ k) : (float (u.add v)).AtMost k := by
  have sum' : (a : ℚ) + b ≤ k := by exact_mod_cast sum
  cases u with
  | nan mark => exact absurd hu (not_atMost_nan a mark)
  | posInf => exact absurd hu (not_atMost_posInf a)
  | negInf =>
    cases v with
    | nan mark => exact absurd hv (not_atMost_nan b mark)
    | posInf => exact absurd hv (not_atMost_posInf b)
    | _ => exact atMost_negInf k
  | negZero =>
    have hu := (atMost_negZero a).mp hu
    have hu' : (0 : ℚ) ≤ a := by exact_mod_cast hu
    cases v with
    | nan mark => exact absurd hv (not_atMost_nan b mark)
    | posInf => exact absurd hv (not_atMost_posInf b)
    | negInf => exact atMost_negInf k
    | negZero =>
      have hv := (atMost_negZero b).mp hv
      exact (atMost_negZero k).mpr (by omega)
    | finite q =>
      have hv := (atMost_finite b q).mp hv
      exact (atMost_finite k q).mpr (by linarith)
  | finite p =>
    have hu := (atMost_finite a p).mp hu
    cases v with
    | nan mark => exact absurd hv (not_atMost_nan b mark)
    | posInf => exact absurd hv (not_atMost_posInf b)
    | negInf => exact atMost_negInf k
    | negZero =>
      have hv : (0 : ℚ) ≤ b := by exact_mod_cast (atMost_negZero b).mp hv
      exact (atMost_finite k p).mpr (by linarith)
    | finite q =>
      have hv := (atMost_finite b q).mp hv
      exact atMost_ofRat (p + q) k hk (by linarith)

/-- A sum is exact, or the rounded sum of the rounded numbers. -/
theorem add?_cases (h : x.add? y = some z) :
    (∃ p q : ℚ, x.place? = some (.line p) ∧ y.place? = some (.line q) ∧
        z.place? = some (.line (p + q))) ∨
      ∃ u v, x.toBinary64? = some u ∧ y.toBinary64? = some v ∧ z = .float (u.add v) := by
  have rounded : ∀ {x y : Number}, (do
      return Number.float (Binary64.add (← x.toBinary64?) (← y.toBinary64?))) = some z →
      ∃ u v, x.toBinary64? = some u ∧ y.toBinary64? = some v ∧ z = .float (u.add v) := by
    intro x y h
    obtain ⟨u, hu, h⟩ := Option.bind_eq_some_iff.mp h
    obtain ⟨v, hv, h⟩ := Option.bind_eq_some_iff.mp h
    cases h
    exact ⟨u, v, hu, hv, rfl⟩
  cases x <;> cases y <;> first
    | exact .inr (rounded h)
    | (cases h; exact .inl ⟨_, _, rfl, rfl, by simp [place?]⟩)

/-- A sum does not lie above the sum of integers of 53 bits that its parts do not lie above. -/
theorem AtMost.add? (hx : x.AtMost a) (hy : y.AtMost b) (ha : a.natAbs < 2 ^ 53)
    (hb : b.natAbs < 2 ^ 53) (hk : (a + b).natAbs < 2 ^ 53) (h : x.add? y = some z) :
    z.AtMost (a + b) := by
  obtain ⟨p, q, hp, hq, hz⟩ | ⟨u, v, hu, hv, rfl⟩ := add?_cases h
  · rw [atMost_of_line _ hp] at hx
    rw [atMost_of_line _ hq] at hy
    rw [atMost_of_line _ hz]
    push_cast
    linarith
  · exact atMost_add (hx.toBinary64? ha hu) (hy.toBinary64? hb hv) hk le_rfl

theorem AtMost.ne_posInf (hx : x.AtMost a) : x.eq .posInf = false := by
  obtain ⟨p, hp, below⟩ := (atMost_iff a x).mp hx
  rw [eq_of_place hp rfl, decide_eq_false_iff_not]
  rintro rfl
  cases below

theorem AtMost.of_lt (hx : x.AtMost a) (h : y.lt x = true) : y.AtMost a := by
  obtain ⟨p, hp, below⟩ := (atMost_iff a x).mp hx
  obtain ⟨q, p', hq, hp', less⟩ := (lt_iff_place? _ _).mp h
  cases hp.symm.trans hp'
  refine (atMost_iff a y).mpr ⟨q, hq, Bool.eq_false_iff.mpr fun above => ?_⟩
  rw [Place.lt_trans _ _ _ above less] at below
  cases below

/-- The smaller of two numbers does not lie above what the first one does not. -/
theorem AtMost.pick {q : Place} (hx : x.AtMost a) (hy : y.place? = some q) :
    (if x.lt y then x else y).AtMost a := by
  split_ifs with smaller
  · exact hx
  · obtain ⟨p, hp, below⟩ := (atMost_iff a x).mp hx
    refine (atMost_iff a y).mpr ⟨q, hy, Bool.eq_false_iff.mpr fun above => ?_⟩
    rw [lt_of_place hp hy] at smaller
    rcases p.trichotomy (.line a) with less | rfl | more
    · exact smaller (Place.lt_trans _ _ _ less above)
    · exact smaller above
    · rw [below] at more
      cases more

end Sum

end Number

end Chronoplan
