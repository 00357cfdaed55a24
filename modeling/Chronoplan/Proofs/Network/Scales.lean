import Chronoplan.Proofs.Network.Solutions
import Chronoplan.Proofs.Rounding

/-!
# Scales

The numbers of a network count ticks, whose length a level of detail and a time unit give. Both are
scales: a change multiplies every number by the quotient of two lengths, of which the longer is a
multiple of the shorter, rounds it and checks the network again.
-/

set_option autoImplicit false

namespace Chronoplan

/-! ### Changes of integers -/

namespace Number

/-- Only an integer is changed. -/
def mapInt (f : ℤ → ℤ) : Number → Number
  | .int m => .int (f m)
  | x => x

@[simp] theorem mapInt_int (f : ℤ → ℤ) (m : ℤ) : (Number.int m).mapInt f = .int (f m) := rfl

@[simp] theorem mapInt_float (f : ℤ → ℤ) (x : Binary64) : (Number.float x).mapInt f = .float x :=
  rfl

theorem mapInt_mapInt (f g : ℤ → ℤ) (x : Number) :
    (x.mapInt f).mapInt g = x.mapInt fun m => g (f m) := by
  cases x <;> rfl

theorem mapInt_id (x : Number) : (x.mapInt fun m => m) = x := by
  cases x <;> rfl

theorem mapInt_eq_int_iff (f : ℤ → ℤ) (x : Number) (k : ℤ) :
    x.mapInt f = .int k ↔ ∃ m, x = .int m ∧ f m = k := by
  cases x <;> simp [mapInt]

end Number

namespace Bound

def mapInt (f : ℤ → ℤ) (b : Bound) : Bound := ⟨b.lo.mapInt f, b.hi.mapInt f⟩

theorem mapInt_mapInt (f g : ℤ → ℤ) (b : Bound) :
    (b.mapInt f).mapInt g = b.mapInt fun m => g (f m) := by
  simp only [mapInt, Number.mapInt_mapInt]

/-- No integer of a bound is larger, on either side of zero. -/
def Within (size : ℕ) (b : Bound) : Prop :=
  ∀ m : ℤ, b.lo = .int m ∨ b.hi = .int m → m.natAbs ≤ size

theorem Within.mapInt {size size' : ℕ} {f : ℤ → ℤ} {b : Bound} (h : b.Within size)
    (hf : ∀ m : ℤ, m.natAbs ≤ size → (f m).natAbs ≤ size') : (b.mapInt f).Within size' := by
  rintro k (hk | hk)
  · obtain ⟨m, hm, rfl⟩ := (Number.mapInt_eq_int_iff f b.lo k).mp hk
    exact hf m (h m (.inl hm))
  · obtain ⟨m, hm, rfl⟩ := (Number.mapInt_eq_int_iff f b.hi k).mp hk
    exact hf m (h m (.inr hm))

theorem Integral.mapInt {b : Bound} (h : b.Integral) (f : ℤ → ℤ) : (b.mapInt f).Integral := by
  obtain ⟨back, forth, rfl⟩ := h
  have lower : ∃ back', (Number.ofDistance back).neg.mapInt f = (Number.ofDistance back').neg := by
    cases back using WithTop.recTopCoe with
    | top => exact ⟨⊤, rfl⟩
    | coe m => exact ⟨_, Number.int_eq_neg_ofDistance (f (-m))⟩
  have upper : ∃ forth', (Number.ofDistance forth).mapInt f = Number.ofDistance forth' := by
    cases forth using WithTop.recTopCoe with
    | top => exact ⟨⊤, rfl⟩
    | coe m => exact ⟨(f m : ℤ), rfl⟩
  obtain ⟨back', lower⟩ := lower
  obtain ⟨forth', upper⟩ := upper
  exact ⟨back', forth', by rw [Bound.mapInt, ofDistances, ofDistances, lower, upper]⟩

/-- Integers that can be added to infinite numbers are small. -/
theorem small_of_within {size : ℕ} {b : Bound} (h : b.Integral) (within : b.Within size)
    (hsize : size ≤ Nat.pow 2 1023) : b.Small := by
  have near : ∀ x : Number, x.Integral → (∀ m, x = .int m → m.natAbs ≤ size) →
      x.toBinary64?.isSome = true := by
    intro x hx bound
    obtain rfl | rfl | ⟨m, rfl⟩ := hx.cases
    · rfl
    · rfl
    · exact addable_of_natAbs_le m ((bound m rfl).trans hsize)
  exact ⟨near b.lo h.lo_integral fun m hm => within m (.inl hm),
    near b.hi h.hi_integral fun m hm => within m (.inr hm)⟩

end Bound

/-- Every bound is changed. -/
def Constraints.mapInt (f : ℤ → ℤ) (c : Constraints) : Constraints :=
  c.map fun e => (e.1, e.2.mapInt f)

theorem Constraints.mapInt_mapInt (f g : ℤ → ℤ) (c : Constraints) :
    (c.mapInt f).mapInt g = c.mapInt fun m => g (f m) := by
  simp [Constraints.mapInt, Bound.mapInt_mapInt]

theorem Constraints.mapInt_id (c : Constraints) : (c.mapInt fun m => m) = c := by
  simp [Constraints.mapInt, Bound.mapInt, Number.mapInt_id]

/-! ### Scaling -/

/-- A number whose product is rounded to a known integer is scaled to it, unless it is too large. -/
theorem scaleBound_eq (x : Number) (hx : x.Integral) (q : ℚ) (f : ℤ → ℤ)
    (rounds : ∀ m : ℤ, x = .int m → roundTicks (m * q) = .ok (f m)) :
    scaleBound x q =
      if x.toBinary64?.isSome = true then .ok (x.mapInt f) else .error .tooLarge := by
  obtain rfl | rfl | ⟨m, rfl⟩ := hx.cases
  · rfl
  · rfl
  · unfold scaleBound Number.toBinary64
    cases near : (Number.int m).toBinary64? with
    | none => rfl
    | some z =>
      have finite : z.isInfinite = false := nearest_not_isInfinite m z near
      simp [orFault, finite, Number.toRatio, rounds m rfl]

theorem scaleAll_eq (c : Constraints) (integral : ∀ e ∈ c, e.2.Integral) (q : ℚ)
    (f : ℤ → ℤ) (rounds : ∀ e ∈ c, ∀ m : ℤ, e.2.lo = .int m ∨ e.2.hi = .int m →
      roundTicks (m * q) = .ok (f m)) : Network.scaleAll q c =
    if ∀ e ∈ c, e.2.Small then .ok (c.mapInt f) else .error .tooLarge := by
  refine mapM_eq_ite _ (fun e => e.2.Small) (fun e => (e.1, e.2.mapInt f)) .tooLarge c ?_
  intro e he
  have low := scaleBound_eq e.2.lo (integral e he).lo_integral q f fun m hm =>
    rounds e he m (.inl hm)
  have high := scaleBound_eq e.2.hi (integral e he).hi_integral q f fun m hm =>
    rounds e he m (.inr hm)
  rw [low, high]
  by_cases small : e.2.Small
  · rw [if_pos small, if_pos small.1, if_pos small.2]
    rfl
  · rw [if_neg small]
    by_cases nearLow : e.2.lo.toBinary64?.isSome = true
    · rw [if_pos nearLow, if_neg fun nearHigh => small ⟨nearLow, nearHigh⟩]
      rfl
    · rw [if_neg nearLow]
      rfl

theorem scaleAll_eq_ok_iff (c : Constraints) (integral : ∀ e ∈ c, e.2.Integral) (q : ℚ)
    (f : ℤ → ℤ) (rounds : ∀ e ∈ c, ∀ m : ℤ, e.2.lo = .int m ∨ e.2.hi = .int m →
      roundTicks (m * q) = .ok (f m)) (cs : Constraints) :
    Network.scaleAll q c = .ok cs ↔ (∀ e ∈ c, e.2.Small) ∧ cs = c.mapInt f := by
  rw [scaleAll_eq c integral q f rounds]
  split_ifs with small
  · simp only [Except.ok.injEq, eq_comm, iff_and_self]
    exact fun _ => small
  · exact iff_of_false (fun h => by cases h) fun h => small h.1

/-! ### Short ticks -/

/-- The number of short ticks, of which `k` make a long one, in a number of long ones. -/
def shortTicks (k : ℕ) (m : ℤ) : ℤ := m * k

theorem roundTicks_short (k : ℕ) (m : ℤ) :
    roundTicks (m * (k : ℚ)) = .ok (shortTicks k m) := by
  have whole : (m : ℚ) * k = (shortTicks k m : ℤ) := by
    rw [shortTicks, Int.cast_mul, Int.cast_natCast]
  rw [whole, roundTicks_int]

theorem shortTicks_mono (k : ℕ) : Monotone (shortTicks k) :=
  fun _ _ h => mul_le_mul_of_nonneg_right h (Int.natCast_nonneg k)

/-! ### Levels and units -/

/-- A level of detail or a time unit. -/
inductive Scale
  | detail (level : Detail)
  | unit (u : TimeUnit)
deriving DecidableEq

theorem Detail.resolution_dvd (a b : Detail) (h : a.resolution ≤ b.resolution) :
    a.resolution ∣ b.resolution := by
  revert h
  cases a <;> cases b <;> decide

theorem TimeUnit.micros_dvd (a b : TimeUnit) (h : a.micros ≤ b.micros) : a.micros ∣ b.micros := by
  revert h
  cases a <;> cases b <;> decide

namespace Scale

/-- The length of a tick, in hundredths of a time unit or in microseconds. -/
def length : Scale → ℕ
  | detail level => level.resolution
  | unit u => u.micros

theorem length_pos (s : Scale) : 0 < s.length := by
  cases s with
  | detail level => exact level.resolution_pos
  | unit u => exact u.micros_pos

theorem length_le (s : Scale) : s.length ≤ 86400000000 := by
  cases s with
  | detail level => cases level <;> decide
  | unit u => cases u <;> decide

/-- What numbers in the first scale are multiplied by to become numbers in the second. -/
def factor (a b : Scale) : ℚ := mkRat a.length b.length

/-- Half a long tick, in short ones. -/
def tolerance (fine coarse : Scale) : ℚ := mkRat coarse.length fine.length / 2

theorem tolerance_nonneg (fine coarse : Scale) : 0 ≤ fine.tolerance coarse :=
  div_nonneg (Rat.mkRat_nonneg (Int.natCast_nonneg _) _) (by decide)

theorem tolerance_detail (fine coarse : Detail) :
    (detail fine).tolerance (detail coarse) = fine.tolerance coarse := rfl

/-- The number of short ticks in a long one. -/
def ratio (fine coarse : Scale) : ℕ := coarse.length / fine.length

section Ratio

variable {fine coarse : Scale} (h : fine.length ∣ coarse.length)
include h

theorem ratio_pos : 0 < fine.ratio coarse :=
  Nat.div_pos (Nat.le_of_dvd coarse.length_pos h) fine.length_pos

theorem mkRat_length : mkRat coarse.length fine.length = (fine.ratio coarse : ℚ) := by
  have nonzero : (fine.length : ℚ) ≠ 0 := by exact_mod_cast fine.length_pos.ne'
  rw [Rat.mkRat_eq_div, ratio, Nat.cast_div h nonzero, Int.cast_natCast]

theorem factor_to_fine : coarse.factor fine = (fine.ratio coarse : ℚ) := mkRat_length h

theorem factor_to_coarse : fine.factor coarse = 1 / (fine.ratio coarse : ℚ) := by
  rw [← mkRat_length h, factor, Rat.mkRat_eq_div, Rat.mkRat_eq_div, one_div_div, Int.cast_natCast,
    Int.cast_natCast]

theorem tolerance_eq : fine.tolerance coarse = (fine.ratio coarse : ℚ) / 2 := by
  rw [tolerance, mkRat_length h]

end Ratio

/-- The scale of a network that a scale is set in place of. -/
def current (s : Scale) (n : Network) : Scale :=
  match s with
  | detail _ => detail n.detail
  | unit _ => unit n.unit

/-- The network with its bounds in another scale, checked again. -/
def set (s : Scale) (n : Network) : Except Fault Network :=
  match s with
  | detail level => n.setDetail level
  | unit u => n.setUnit u

/-- The network with bounds that are in the scale already. -/
def mark (s : Scale) (n : Network) (cs : Constraints) : Network :=
  match s with
  | detail level => { n with constraints := cs, detail := level }
  | unit u => { n with constraints := cs, unit := u }

section Set

variable (s : Scale) (n : Network)

theorem dvd_current (finer : s.length ≤ (s.current n).length) :
    s.length ∣ (s.current n).length := by
  cases s with
  | detail level => exact Detail.resolution_dvd _ _ finer
  | unit u => exact TimeUnit.micros_dvd _ _ finer

theorem current_dvd (coarser : (s.current n).length ≤ s.length) :
    (s.current n).length ∣ s.length := by
  cases s with
  | detail level => exact Detail.resolution_dvd _ _ coarser
  | unit u => exact TimeUnit.micros_dvd _ _ coarser

theorem set_current (same : s = s.current n) : s.set n = .ok n := by
  cases s with
  | detail level => simp_all [current, set, Network.setDetail]
  | unit u => simp_all [current, set, Network.setUnit]

theorem set_eq (apart : s ≠ s.current n) :
    s.set n = Network.scaleAll ((s.current n).factor s) n.constraints >>= fun cs =>
      (s.mark n cs).recheck := by
  cases s with
  | detail level =>
    have other : level ≠ n.detail := fun same => apart (by rw [current, same])
    simp only [set, Network.setDetail, other, if_false]
    rfl
  | unit u =>
    have other : u ≠ n.unit := fun same => apart (by rw [current, same])
    simp only [set, Network.setUnit, other, if_false]
    rfl

variable (cs : Constraints)

theorem mark_points : (s.mark n cs).points = n.points := by cases s <;> rfl

theorem mark_constraints : (s.mark n cs).constraints = cs := by cases s <;> rfl

theorem mark_addable : (s.mark n cs).Addable ↔ Network.Addable { n with constraints := cs } := by
  cases s <;> rfl

theorem mark_report : (s.mark n cs).report = Network.report { n with constraints := cs } := by
  cases s <;> rfl

theorem mark_wellFormed (fits : ∀ e ∈ cs, Fits n.points e) : (s.mark n cs).WellFormed := by
  intro e he
  rw [mark_constraints] at he
  rw [mark_points]
  exact fits e he

/-- A scale is set exactly when the scaled bounds can be checked. -/
theorem set_eq_ok_iff (apart : s ≠ s.current n)
    (scaled : Network.scaleAll ((s.current n).factor s) n.constraints = .ok cs)
    (fits : ∀ e ∈ cs, Fits n.points e) (m : Network) : s.set n = .ok m ↔
      Network.Addable { n with constraints := cs } ∧ m = { s.mark n cs with
        consistent := (Network.report { n with constraints := cs }).consistent } := by
  have w := s.mark_wellFormed n cs fits
  rw [set_eq s n apart, scaled, ok_bind, Network.recheck_eq_ok_iff]
  simp only [Network.isConsistent_eq_ok_iff _ w, mark_addable, mark_report]
  constructor
  · rintro ⟨flag, ⟨ha, rfl⟩, rfl⟩
    exact ⟨ha, rfl⟩
  · rintro ⟨ha, rfl⟩
    exact ⟨_, ⟨ha, rfl⟩, rfl⟩

theorem set_fault (apart : s ≠ s.current n)
    (scaled : Network.scaleAll ((s.current n).factor s) n.constraints = .ok cs)
    (fits : ∀ e ∈ cs, Fits n.points e) (e : Fault) (h : s.set n = .error e) : e = .tooLarge := by
  rw [set_eq s n apart, scaled, ok_bind] at h
  exact Network.recheck_fault (s.mark_wellFormed n cs fits) e h

end Set

end Scale

end Chronoplan
