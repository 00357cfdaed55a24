import Chronoplan.Calendar
import Chronoplan.Proofs.Faults
import Chronoplan.Proofs.Rounding
import Chronoplan.Tick.Amount

/-!
# Spans and moments in ticks

A time span has so few microseconds that its quotient by the length of a tick is rounded as in one
step. What lies between two dates of four-digit years is such a span, so that a moment is placed
at the tick that is nearest to it, and later moments are not placed earlier.
-/

set_option autoImplicit false

namespace Chronoplan

/-! ### Few digits -/

theorem Span.inRange?_eq_some_iff (micros : ℤ) : Span.inRange? micros = some micros ↔
    -86400000000 * 999999999 ≤ micros ∧ micros < 86400000000 * 1000000000 := by
  unfold Span.inRange? Span.days
  rw [Int.fdiv_eq_ediv_of_nonneg _ (by decide)]
  split_ifs with near
  · exact iff_of_true rfl (by omega)
  · exact iff_of_false (by simp) (by omega)

section

variable (u : TimeUnit) (l : Detail)

/-- The microseconds of a tick. -/
def tickLength : ℚ := u.micros * (l.resolution / Detail.medium.resolution)

/-- The number of ticks that is nearest to a number of microseconds. -/
def nearestTick (micros : ℤ) : ℤ := roundAway (micros / tickLength u l)

theorem tickLength_pos : 0 < tickLength u l := by
  have unit : (0 : ℚ) < u.micros := by exact_mod_cast u.micros_pos
  have level : (0 : ℚ) < l.resolution := by exact_mod_cast l.resolution_pos
  have middle : (0 : ℚ) < Detail.medium.resolution := by exact_mod_cast Detail.medium.resolution_pos
  exact mul_pos unit (div_pos level middle)

theorem nearestTick_mono : Monotone (nearestTick u l) := fun _ _ h =>
  roundAway_mono (div_le_div_of_nonneg_right (by exact_mod_cast h) (tickLength_pos u l).le)

theorem nearestTick_neg (micros : ℤ) : nearestTick u l (-micros) = -nearestTick u l micros := by
  rw [nearestTick, Int.cast_neg, neg_div, roundAway_neg, nearestTick]

theorem tickQuotient_eq (micros : ℤ) : tickQuotient micros u l = micros / tickLength u l := by
  rw [tickQuotient, Detail.ticksPerUnit, tickLength, Rat.mkRat_eq_div, Rat.mkRat_eq_div,
    div_mul_div_comm, Int.cast_natCast, mul_div_assoc', div_div_eq_mul_div]

theorem num_tickQuotient_le (micros : ℤ) :
    (tickQuotient micros u l).num.natAbs ≤ micros.natAbs * Detail.medium.resolution := by
  have nonzero : (u.micros * l.resolution : ℤ) ≠ 0 := by
    have unit := u.micros_pos
    have level := l.resolution_pos
    positivity
  have quotient : tickQuotient micros u l =
      Rat.divInt (micros * Detail.medium.resolution) (u.micros * l.resolution) := by
    rw [tickQuotient, Detail.ticksPerUnit, Rat.mkRat_eq_div, Rat.mkRat_eq_div, div_mul_div_comm,
      Rat.divInt_eq_div]
    push_cast
    rfl
  by_cases zero : micros = 0
  · simp [tickQuotient_eq, zero]
  · have dvd := Rat.num_dvd (micros * Detail.medium.resolution) nonzero
    rw [← quotient, ← Int.natAbs_dvd_natAbs, Int.natAbs_mul, Int.natAbs_natCast] at dvd
    exact Nat.le_of_dvd (Nat.mul_pos (Int.natAbs_pos.mpr zero) Detail.medium.resolution_pos) dvd

/-- A time span is rounded to the nearest number of ticks. -/
theorem spanTicks_eq (micros : ℤ) (h : Span.inRange? micros = some micros) :
    spanTicks micros u l = .ok (nearestTick u l micros) := by
  obtain ⟨lower, upper⟩ := (Span.inRange?_eq_some_iff micros).mp h
  have few := num_tickQuotient_le u l micros
  rw [show Detail.medium.resolution = 100 from rfl] at few
  rw [spanTicks, roundTicks_eq _ (by omega), tickQuotient_eq, nearestTick]

end

/-! ### Moments -/

theorem Date.monthLength_le (y m : ℕ) : Date.monthLength y m ≤ 31 := by
  unfold Date.monthLength Date.isLeap
  grind

theorem Date.daysBefore_le (y m : ℕ) : Date.daysBefore y m ≤ 31 * m := by
  induction m using Date.daysBefore.induct with
  | case1 => exact Nat.zero_le _
  | case2 => exact Nat.zero_le _
  | case3 m later ih =>
    have last := Date.monthLength_le y m
    rw [Date.daysBefore]
    · omega
    · exact later

theorem Date.natAbs_dayNumber_le (d : Date) (h : d.valid = true) :
    d.dayNumber.natAbs ≤ 4000000 := by
  have before := Date.daysBefore_le d.year d.month
  have length := Date.monthLength_le d.year d.month
  simp only [Date.valid, Bool.and_eq_true, decide_eq_true_eq] at h
  simp only [Date.dayNumber]
  omega

/-- A valid moment is within some eleven thousand years of 1970. -/
theorem Moment.natAbs_micros_le (t : Moment) (h : t.valid = true) :
    t.micros.natAbs ≤ 4000002 * 86400000000 := by
  simp only [Moment.valid, Bool.and_eq_true, decide_eq_true_eq] at h
  obtain ⟨⟨⟨⟨⟨date, hour⟩, minute⟩, second⟩, micro⟩, offset⟩ := h
  have days := t.date.natAbs_dayNumber_le date
  have zone : (t.offset.getD 0).natAbs ≤ 86400000000 := by
    cases ho : t.offset with
    | none => decide
    | some o =>
      simp only [ho, Bool.and_eq_true, decide_eq_true_eq] at offset
      simp only [Option.getD_some]
      omega
  unfold Moment.micros Moment.localMicros
  omega

/-- What lies between two valid moments is a time span. -/
theorem Moment.inRange?_sub (t r : Moment) (ht : t.valid = true) (hr : r.valid = true) :
    Span.inRange? (t.micros - r.micros) = some (t.micros - r.micros) := by
  have later := t.natAbs_micros_le ht
  have sooner := r.natAbs_micros_le hr
  rw [Span.inRange?_eq_some_iff]
  omega

theorem momentTicks_eq (t r : Moment) (u : TimeUnit) (l : Detail) (ht : t.valid = true)
    (hr : r.valid = true) (zone : r.offset ≠ none) :
    momentTicks t r u l = .ok (nearestTick u l (t.micros - r.micros)) := by
  obtain ⟨o, ho⟩ := Option.ne_none_iff_exists'.mp zone
  simp only [momentTicks, ho]
  exact spanTicks_eq u l _ (Moment.inRange?_sub t r ht hr)

/-! ### By name -/

@[simp] theorem TimeUnit.ofValue_name (u : TimeUnit) : TimeUnit.ofValue (.str u.name) = .ok u := by
  simp [TimeUnit.ofValue, TimeUnit.ofName?_name, orFault]

@[simp] theorem Detail.ofValue_name (l : Detail) : Detail.ofValue (.str l.name) = .ok l := by
  simp [Detail.ofValue, Detail.ofName?_name, orFault]

theorem spanTicksOf_eq (micros : ℤ) (u : TimeUnit) (l : Detail) :
    spanTicksOf (.span micros) (.str u.name) (.str l.name) = spanTicks micros u l := by
  simp [spanTicksOf]

theorem momentTicksOf_eq (t r : Moment) (u : TimeUnit) (l : Detail) :
    momentTicksOf (.moment t) (.moment r) (.str u.name) (.str l.name) = momentTicks t r u l := by
  cases h : r.offset with
  | none =>
    simp only [momentTicksOf, momentTicks, h]
    rfl
  | some o => simp [momentTicksOf, momentTicks, spanTicksOf_eq, h]

/-- In every unit and at every level, a time span is the nearest number of ticks, which is a
monotone and odd function of it. A moment is placed by the span that separates it from the
reference, so that a later one is not placed earlier; without an offset it is read as universal
time. -/
theorem spanTicks_nearest (u : TimeUnit) (l : Detail) :
    (∀ micros : ℤ, Span.inRange? micros = some micros →
      spanTicks micros u l = .ok (nearestTick u l micros) ∧
      spanTicksOf (.span micros) (.str u.name) (.str l.name) = .ok (nearestTick u l micros)) ∧
    (∀ micros : ℤ, Nearest (micros / tickLength u l) (nearestTick u l micros)) ∧
    Monotone (nearestTick u l) ∧
    (∀ micros : ℤ, nearestTick u l (-micros) = -nearestTick u l micros) ∧
    (∀ t r : Moment, t.valid = true → r.valid = true → r.offset ≠ none →
      momentTicks t r u l = .ok (nearestTick u l (t.micros - r.micros)) ∧
      momentTicksOf (.moment t) (.moment r) (.str u.name) (.str l.name) =
        .ok (nearestTick u l (t.micros - r.micros)) ∧
      ∀ t' : Moment, t'.valid = true → t.micros ≤ t'.micros →
        ∃ k, momentTicks t' r u l = .ok k ∧ nearestTick u l (t.micros - r.micros) ≤ k) ∧
    ∀ t : Moment, t.offset = none → t.micros = { t with offset := some 0 }.micros := by
  refine ⟨fun micros h => ?_, fun micros => nearest_roundAway _, nearestTick_mono u l,
    nearestTick_neg u l, fun t r ht hr zone => ?_, fun t naive => ?_⟩
  · rw [spanTicksOf_eq, spanTicks_eq u l micros h]
    exact ⟨rfl, rfl⟩
  · rw [momentTicksOf_eq, momentTicks_eq t r u l ht hr zone]
    refine ⟨rfl, rfl, fun t' ht' later => ⟨_, momentTicks_eq t' r u l ht' hr zone, ?_⟩⟩
    exact nearestTick_mono u l (by omega)
  · simp [Moment.micros, Moment.localMicros, naive]

/-- A day and a half counted from the epoch, by a clock without an offset and by one an hour to
the east, is two days. -/
theorem spanTicks_noon :
    (Span.inRange? 129600000000 = some 129600000000 ∧
      spanTicks 129600000000 .day .medium = .ok 2) ∧
    ∃ t t' : Moment, t.valid = true ∧ t'.valid = true ∧ Moment.epoch.valid = true ∧
      Moment.epoch.offset ≠ none ∧ t.offset = none ∧ t'.offset = some 3600000000 ∧
      t.micros = t'.micros ∧ momentTicks t .epoch .day .medium = .ok 2 ∧
      ∃ k, momentTicks t' .epoch .day .medium = .ok k ∧ 2 ≤ k := by
  have range : Span.inRange? 129600000000 = some 129600000000 := by decide +kernel
  have two : nearestTick .day .medium 129600000000 = 2 := by decide +kernel
  obtain ⟨spans, -, -, -, moments, -⟩ := spanTicks_nearest .day .medium
  let t : Moment := ⟨⟨1970, 1, 2⟩, 12, 0, 0, 0, none⟩
  let t' : Moment := ⟨⟨1970, 1, 2⟩, 13, 0, 0, 0, some 3600000000⟩
  have gap : t.micros - Moment.epoch.micros = 129600000000 := by decide
  obtain ⟨placed, -, later⟩ := moments t .epoch (by decide) (by decide) (by decide)
  have after := later t' (by decide) (by decide)
  rw [gap, two] at placed after
  exact ⟨⟨range, two ▸ (spans _ range).1⟩, t, t', by decide, by decide, by decide, by decide, rfl,
    rfl, by decide, placed, after⟩

end Chronoplan
