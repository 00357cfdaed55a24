import Mathlib
import Chronoplan.Network.Distance
import Chronoplan.Proofs.Faults

/-!
# Integers and infinite numbers

A number that is an integer or infinite is a distance, and a bound of such numbers is a pair of
distances, one for either direction. Order, sums, meets and negation of the numbers are those of
the distances, except that an integer can be too large to be added to an infinite number. One of
at most 1023 bits never is.
-/

set_option autoImplicit false

namespace Chronoplan

theorem ite_lt_eq_min {α : Type} (f : WithTop ℤ → α) (a b : WithTop ℤ) :
    (if decide (b < a) = true then f b else f a) = f (min a b) := by
  rw [min_comm, min_def_lt, apply_ite f]
  simp

namespace Number

theorem lt_of_place {x y : Number} {p q : Place} (hx : x.place? = some p)
    (hy : y.place? = some q) : x.lt y = p.lt q := by
  unfold lt
  split
  · cases hx
    cases hy
    simp [Place.lt]
  · rw [hx, hy]

theorem eq_of_place {x y : Number} {p q : Place} (hx : x.place? = some p)
    (hy : y.place? = some q) : x.eq y = decide (p = q) := by
  unfold eq
  split
  · cases hx
    cases hy
    simp
  · rw [hx, hy]

/-- A distance as a number: an integer, or infinite when there is no limit. -/
def ofDistance : WithTop ℤ → Number
  | none => posInf
  | some m => .int m

@[simp] theorem ofDistance_top : ofDistance ⊤ = posInf := rfl

@[simp] theorem ofDistance_coe (m : ℤ) : ofDistance (m : WithTop ℤ) = .int m := rfl

theorem int_eq_neg_ofDistance (m : ℤ) : int m = (ofDistance ((-m : ℤ) : WithTop ℤ)).neg := by
  rw [ofDistance_coe, neg_int, Int.neg_neg]

theorem ofDistance_injective : Function.Injective ofDistance := by
  intro a b h
  cases a using WithTop.recTopCoe with
  | top =>
    cases b using WithTop.recTopCoe with
    | top => rfl
    | coe n => cases h
  | coe m =>
    cases b using WithTop.recTopCoe with
    | top => cases h
    | coe n => exact congrArg _ (Number.int.inj h)

@[simp] theorem lt_ofDistance (a b : WithTop ℤ) :
    (ofDistance a).lt (ofDistance b) = decide (a < b) := by
  cases a using WithTop.recTopCoe with
  | top =>
    cases b using WithTop.recTopCoe with
    | top => rfl
    | coe n => simp [lt, place?, Place.lt]
  | coe m =>
    cases b using WithTop.recTopCoe with
    | top => simp [lt, place?, Place.lt]
    | coe n => simp

@[simp] theorem eq_posInf_ofDistance (a : WithTop ℤ) :
    (ofDistance a).eq posInf = decide (a = ⊤) := by
  cases a using WithTop.recTopCoe with
  | top => rfl
  | coe m => simp [eq, place?]

theorem le_ofDistance (a b : WithTop ℤ) :
    (ofDistance a).le (ofDistance b) = decide (a ≤ b) := by
  cases b using WithTop.recTopCoe with
  | top =>
    cases a using WithTop.recTopCoe with
    | top => rfl
    | coe m => simp [le, lt, place?, Place.lt]
  | coe n =>
    cases a using WithTop.recTopCoe with
    | top => simp [le, lt, eq, place?, Place.lt]
    | coe m => simp

@[simp] theorem neg_neg_ofDistance (a : WithTop ℤ) : (ofDistance a).neg.neg = ofDistance a := by
  cases a using WithTop.recTopCoe with
  | top => rfl
  | coe m => simp

end Number

/-! ## Integers beside infinite numbers -/

/-- An integer small enough to be added to an infinite number. -/
def Addable (m : ℤ) : Prop := (Number.int m).toBinary64?.isSome = true

instance (m : ℤ) : Decidable (Addable m) := inferInstanceAs (Decidable (_ = true))

namespace Binary64

theorem ofQuotient_cases (n d : ℕ) :
    ofQuotient n d = .posInf ∨ ∃ q, ofQuotient n d = .finite q := by
  unfold ofQuotient
  simp only
  split_ifs
  · exact .inr ⟨_, rfl⟩
  · exact .inl rfl
  · exact .inr ⟨_, rfl⟩
  · exact .inr ⟨_, rfl⟩

theorem ofRat_cases (q : Rat) :
    ofRat q = .posInf ∨ ofRat q = .negInf ∨ ofRat q = .negZero ∨ ∃ p, ofRat q = .finite p := by
  unfold ofRat
  simp only
  rcases ofQuotient_cases q.num.natAbs q.den with h | ⟨p, h⟩ <;> rw [h] <;> split_ifs
  · exact .inr (.inl rfl)
  · exact .inl rfl
  · by_cases hp : p = 0
    · exact .inr (.inr (.inl (by simp [neg, hp])))
    · exact .inr (.inr (.inr ⟨-p, by simp [neg, hp]⟩))
  · exact .inr (.inr (.inr ⟨p, rfl⟩))

end Binary64

theorem nearest_not_isInfinite (q : Rat) (x : Binary64)
    (h : Number.toBinary64?.nearest q = some x) : x.isInfinite = false := by
  unfold Number.toBinary64?.nearest at h
  split at h
  · cases h
  · cases h
  · next top bot =>
    cases h
    cases hx : Binary64.ofRat q with
    | posInf => exact absurd hx top
    | negInf => exact absurd hx bot
    | _ => rfl

theorem nearest_add_posInf (q : Rat) (y : Binary64)
    (h : Number.toBinary64?.nearest q = some y) : y.add .posInf = .posInf := by
  unfold Number.toBinary64?.nearest at h
  rcases Binary64.ofRat_cases q with hq | hq | hq | ⟨p, hq⟩ <;> rw [hq] at h <;> cases h <;> rfl

theorem add?_int_posInf (m : ℤ) :
    Number.add? (.int m) .posInf = if Addable m then some .posInf else none := by
  have rounds : Number.add? (.int m) .posInf
      = (Number.toBinary64?.nearest m).bind fun y => some (.float (y.add .posInf)) := rfl
  rw [rounds]
  by_cases h : Addable m
  · obtain ⟨y, hy⟩ := Option.isSome_iff_exists.mp h
    have near : Number.toBinary64?.nearest (m : Rat) = some y := hy
    rw [if_pos h, near, Option.bind_some, nearest_add_posInf _ _ near]
  · have far : Number.toBinary64?.nearest (m : Rat) = none := Option.not_isSome_iff_eq_none.mp h
    rw [if_neg h, far, Option.bind_none]

theorem nearest_posInf_sub (q : Rat) (y : Binary64)
    (h : Number.toBinary64?.nearest q = some y) : Binary64.posInf.sub y = .posInf := by
  unfold Number.toBinary64?.nearest at h
  rcases Binary64.ofRat_cases q with hq | hq | hq | ⟨p, hq⟩ <;> rw [hq] at h <;> cases h
  · rfl
  · by_cases hp : p = 0 <;> simp [Binary64.sub, Binary64.neg, Binary64.add, hp]

theorem posInf_sub?_int (m : ℤ) :
    Number.sub? .posInf (.int m) = if Addable m then some .posInf else none := by
  have rounds : Number.sub? .posInf (.int m)
      = (Number.toBinary64?.nearest m).bind fun y => some (.float (Binary64.posInf.sub y)) := rfl
  rw [rounds]
  by_cases h : Addable m
  · obtain ⟨y, hy⟩ := Option.isSome_iff_exists.mp h
    have near : Number.toBinary64?.nearest (m : Rat) = some y := hy
    rw [if_pos h, near, Option.bind_some, nearest_posInf_sub _ _ near]
  · have far : Number.toBinary64?.nearest (m : Rat) = none := Option.not_isSome_iff_eq_none.mp h
    rw [if_neg h, far, Option.bind_none]

/-- A sum with a distance fails only for an integer that is too large beside an infinite one. -/
theorem addNumbers_eq_ok_iff (m : ℤ) (b : WithTop ℤ) (x : Number) :
    addNumbers (.int m) (.ofDistance b) = .ok x ↔
      (b = ⊤ → Addable m) ∧ x = .ofDistance (m + b) := by
  rw [addNumbers, orFault_eq_ok_iff]
  cases b using WithTop.recTopCoe with
  | top =>
    rw [Number.ofDistance_top, add?_int_posInf]
    by_cases h : Addable m
    · simp [h, eq_comm]
    · simp [h]
  | coe n =>
    rw [Number.ofDistance_coe, Number.add?_int, ← WithTop.coe_add, Number.ofDistance_coe]
    simp only [WithTop.coe_ne_top, false_implies, true_and, Option.some.injEq]
    exact eq_comm

theorem pow_unitExponent_le (n : ℕ) (hn : n ≠ 0) :
    Nat.pow 2 (Binary64.unitExponent n 1).toNat ≤ n := by
  have bound : (Binary64.unitExponent n 1).toNat ≤ n.log2 := by
    have one : Nat.log2 1 = 0 := by decide
    unfold Binary64.unitExponent
    simp only [one]
    split_ifs <;> omega
  exact (Nat.pow_le_pow_right (by decide) bound).trans (Nat.log2_self_le hn)

theorem divRound_mul_lt (n d : ℕ) {k : ℕ} (hd : 0 < d) (hdn : d ≤ n) (hn : n ≤ Nat.pow 2 k) :
    divRound .even n d * d < Nat.pow 2 (k + 1) := by
  have upper := divRound_upper .even n d
  have swap : 2 * d * divRound .even n d = 2 * (divRound .even n d * d) := by
    rw [Nat.mul_assoc, Nat.mul_comm d]
  have twice : Nat.pow 2 (k + 1) = Nat.pow 2 k * 2 := rfl
  omega

theorem ofQuotient_ne_posInf (n : ℕ) (h : n ≤ Nat.pow 2 1023) :
    Binary64.ofQuotient n 1 ≠ .posInf := by
  unfold Binary64.ofQuotient
  simp only
  split_ifs with hn he large
  · simp
  · exfalso
    have small := divRound_mul_lt n (Nat.pow 2 (Binary64.unitExponent n 1).toNat)
      (Nat.pow_pos (by decide)) (pow_unitExponent_le n hn) h
    simp only [Nat.reduceAdd] at small
    rw [Nat.one_mul] at large
    grind
  · simp
  · simp

theorem addable_iff (m : ℤ) : Addable m ↔ Binary64.ofQuotient m.natAbs 1 ≠ .posInf := by
  unfold Addable Number.toBinary64? Number.toBinary64?.nearest Binary64.ofRat
  simp only [Rat.num_intCast, Rat.den_intCast]
  rcases Binary64.ofQuotient_cases m.natAbs 1 with large | ⟨p, hp⟩
  · by_cases hm : m < 0 <;> simp [large, hm, Binary64.neg]
  · by_cases hm : m < 0
    · by_cases hz : p = 0 <;> simp [hp, hm, Binary64.neg, hz]
    · simp [hp, hm]

theorem addable_neg (m : ℤ) : Addable (-m) ↔ Addable m := by
  rw [addable_iff, addable_iff, Int.natAbs_neg]

/-- No integer of at most 1023 bits is too large. -/
theorem addable_of_natAbs_le (m : ℤ) (h : m.natAbs ≤ Nat.pow 2 1023) : Addable m :=
  (addable_iff m).mpr (ofQuotient_ne_posInf m.natAbs h)

/-! ## Bounds -/

namespace Bound

/-- The bound that lets a time be at most `back` one way and at most `forth` the other way. -/
def ofDistances (back forth : WithTop ℤ) : Bound :=
  ⟨(Number.ofDistance back).neg, Number.ofDistance forth⟩

/-- Both numbers are integers, or infinite on their own side. -/
def Integral (b : Bound) : Prop := ∃ back forth, b = ofDistances back forth

theorem ofDistances_eq_unbounded_iff (back forth : WithTop ℤ) :
    ofDistances back forth = unbounded ↔ back = ⊤ ∧ forth = ⊤ := by
  cases back using WithTop.recTopCoe <;> cases forth using WithTop.recTopCoe <;>
    simp [ofDistances, unbounded, Number.neg, Binary64.neg]

theorem contains_ofDistances (back forth : WithTop ℤ) (d : ℤ) :
    (ofDistances back forth).contains (.int d) = true ↔
      ((-d : ℤ) : WithTop ℤ) ≤ back ∧ (d : WithTop ℤ) ≤ forth := by
  have low : (Number.ofDistance back).neg.le (.int d) = true ↔ ((-d : ℤ) : WithTop ℤ) ≤ back := by
    cases back using WithTop.recTopCoe with
    | top => simp [Number.neg, Number.le, Number.lt, Binary64.neg, Number.place?, Place.lt]
    | coe m =>
      rw [Number.ofDistance_coe, Number.neg_int, Number.le_int, decide_eq_true_eq,
        WithTop.coe_le_coe]
      omega
  have high : (Number.int d).le (Number.ofDistance forth) = true ↔ (d : WithTop ℤ) ≤ forth := by
    cases forth using WithTop.recTopCoe with
    | top => simp [Number.le, Number.lt, Number.place?, Place.lt]
    | coe m => simp
  rw [contains, Bool.and_eq_true]
  exact and_congr low high

@[simp] theorem negate_ofDistances (back forth : WithTop ℤ) :
    (ofDistances back forth).negate = ofDistances forth back := by
  simp [negate, ofDistances]

theorem lt_neg_neg (a b : WithTop ℤ) :
    (Number.ofDistance a).neg.lt (Number.ofDistance b).neg = decide (b < a) := by
  cases a using WithTop.recTopCoe with
  | top =>
    cases b using WithTop.recTopCoe with
    | top => rfl
    | coe n => simp [Number.neg, Number.lt, Binary64.neg, Number.place?, Place.lt]
  | coe m =>
    cases b using WithTop.recTopCoe with
    | top => simp [Number.neg, Number.lt, Binary64.neg, Number.place?, Place.lt]
    | coe n =>
      simp only [Number.ofDistance_coe, Number.neg_int, Number.lt_int, WithTop.coe_lt_coe,
        Int.neg_lt_neg_iff]

theorem le_neg_neg (a b : WithTop ℤ) :
    (Number.ofDistance a).neg.le (Number.ofDistance b).neg = decide (b ≤ a) := by
  cases a using WithTop.recTopCoe with
  | top => cases b using WithTop.recTopCoe <;> rfl
  | coe m =>
    cases b using WithTop.recTopCoe with
    | top =>
      simp [Number.neg, Number.le, Number.lt, Number.eq, Binary64.neg, Number.place?, Place.lt]
    | coe n =>
      simp only [Number.ofDistance_coe, Number.neg_int, Number.le_int, WithTop.coe_le_coe,
        Int.neg_le_neg_iff]

@[simp] theorem meet_ofDistances (a b c d : WithTop ℤ) :
    (ofDistances a b).meet (ofDistances c d) = ofDistances (min a c) (min b d) := by
  unfold meet ofDistances Number.max Number.min
  rw [lt_neg_neg, Number.lt_ofDistance, ite_lt_eq_min fun x => (Number.ofDistance x).neg,
    ite_lt_eq_min Number.ofDistance]

theorem crossed_ofDistances (back forth : WithTop ℤ) :
    (ofDistances back forth).crossed = decide (back + forth < 0) := by
  unfold crossed ofDistances
  cases back using WithTop.recTopCoe with
  | top =>
    cases forth using WithTop.recTopCoe with
    | top => rfl
    | coe n => simp [Number.neg, Number.lt, Binary64.neg, Number.place?, Place.lt]
  | coe m =>
    cases forth using WithTop.recTopCoe with
    | top => simp [Number.lt, Number.place?, Place.lt]
    | coe n =>
      rw [Number.ofDistance_coe, Number.ofDistance_coe, Number.neg_int, Number.lt_int,
        ← WithTop.coe_add, decide_eq_decide, ← WithTop.coe_zero, WithTop.coe_lt_coe]
      omega

/-- A bound that contains an integer is in order. -/
theorem Integral.uncrossed (b : Bound) (h : b.Integral) (d : ℤ)
    (hd : b.contains (.int d) = true) : b.crossed = false := by
  obtain ⟨back, forth, rfl⟩ := h
  obtain ⟨low, high⟩ := (contains_ofDistances back forth d).mp hd
  rw [crossed_ofDistances, decide_eq_false_iff_not, not_lt]
  calc (0 : WithTop ℤ)
      = ((-d : ℤ) : WithTop ℤ) + ((d : ℤ) : WithTop ℤ) := by
        rw [← WithTop.coe_add, neg_add_cancel]
        rfl
    _ ≤ back + forth := add_le_add low high

/-- The bound taken the other way is in order whenever the bound is. -/
theorem Integral.crossed_negate (b : Bound) (h : b.Integral) : b.negate.crossed = b.crossed := by
  obtain ⟨back, forth, rfl⟩ := h
  rw [negate_ofDistances, crossed_ofDistances, crossed_ofDistances, add_comm]

theorem Integral.crossed_of_le (b : Bound) (h : b.Integral) (hle : b.lo.le b.hi = true) :
    b.crossed = false := by
  obtain ⟨back, forth, rfl⟩ := h
  rw [crossed_ofDistances, decide_eq_false_iff_not, not_lt]
  cases back using WithTop.recTopCoe with
  | top => simp
  | coe m =>
    cases forth using WithTop.recTopCoe with
    | top => simp
    | coe n =>
      simp only [ofDistances, Number.ofDistance_coe, Number.neg_int, Number.le_int,
        decide_eq_true_eq] at hle
      rw [← WithTop.coe_add, ← WithTop.coe_zero, WithTop.coe_le_coe]
      omega

theorem Integral.le_iff {b : Bound} (h : b.Integral) :
    b.lo.le b.hi = true ↔ b.crossed = false := by
  refine ⟨h.crossed_of_le b, fun ordered => ?_⟩
  obtain ⟨back, forth, rfl⟩ := h
  cases back using WithTop.recTopCoe with
  | top =>
    cases forth using WithTop.recTopCoe with
    | top => rfl
    | coe n => rfl
  | coe m =>
    cases forth using WithTop.recTopCoe with
    | top => simp [ofDistances, Number.le, Number.lt, Number.place?, Place.lt]
    | coe n =>
      rw [crossed, ofDistances, Number.ofDistance_coe, Number.ofDistance_coe, Number.neg_int,
        Number.lt_int, decide_eq_false_iff_not, not_lt] at ordered
      rw [ofDistances, Number.ofDistance_coe, Number.ofDistance_coe, Number.neg_int, Number.le_int,
        decide_eq_true_eq]
      exact ordered

theorem Integral.lo_ne_posInf (b : Bound) (h : b.Integral) : b.lo ≠ .posInf := by
  obtain ⟨back, forth, rfl⟩ := h
  cases back using WithTop.recTopCoe <;> rintro ⟨⟩

theorem Integral.hi_ne_negInf (b : Bound) (h : b.Integral) : b.hi ≠ .negInf := by
  obtain ⟨back, forth, rfl⟩ := h
  cases forth using WithTop.recTopCoe <;> rintro ⟨⟩

theorem Integral.negate (b : Bound) (h : b.Integral) : b.negate.Integral := by
  obtain ⟨back, forth, rfl⟩ := h
  exact ⟨forth, back, negate_ofDistances back forth⟩

theorem Integral.meet (a b : Bound) (ha : a.Integral) (hb : b.Integral) : (a.meet b).Integral := by
  obtain ⟨back, forth, rfl⟩ := ha
  obtain ⟨back', forth', rfl⟩ := hb
  exact ⟨min back back', min forth forth', meet_ofDistances back forth back' forth'⟩

end Bound

end Chronoplan
