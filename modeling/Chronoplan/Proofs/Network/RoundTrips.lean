import Chronoplan.Proofs.Network.Scales

/-!
# There and back

Bounds of moderate size that go to a finer scale come back as they were. Those that go to a coarser
one are rounded on the way, and come back at most half a long tick from where they were, the lower
number of a bound still not above the upper one.
-/

set_option autoImplicit false

namespace Chronoplan

/-! ### Long ticks -/

/-- The number of long ticks, of `k` short ones each, that is nearest to a number of short ones. -/
def longTicks (k : ℕ) (m : ℤ) : ℤ := roundAway (m * (1 / (k : ℚ)))

section Long

variable (k : ℕ) (hk : 0 < k)
include hk

theorem shortTicks_mul_inv (m : ℤ) : ((shortTicks k m : ℤ) : ℚ) * (1 / k) = m := by
  have nonzero : (k : ℚ) ≠ 0 := by exact_mod_cast hk.ne'
  rw [shortTicks, Int.cast_mul, Int.cast_natCast, mul_one_div, mul_div_cancel_right₀ _ nonzero]

theorem longTicks_shortTicks (m : ℤ) : longTicks k (shortTicks k m) = m := by
  rw [longTicks, shortTicks_mul_inv k hk, roundAway_intCast]

theorem longTicks_mono : Monotone (longTicks k) := by
  intro a b h
  apply roundAway_mono
  have positive : (0 : ℚ) ≤ 1 / k := by positivity
  exact mul_le_mul_of_nonneg_right (by exact_mod_cast h) positive

theorem natAbs_longTicks_le (m : ℤ) : (longTicks k m).natAbs ≤ m.natAbs := by
  have mono := longTicks_mono k hk
  have zero : longTicks k 0 = 0 := by
    simpa [shortTicks] using longTicks_shortTicks k hk 0
  have inverse := longTicks_shortTicks k hk m
  have one : (1 : ℤ) ≤ k := by exact_mod_cast hk
  rcases le_total 0 m with positive | negative
  · have upper := mono (show m ≤ shortTicks k m from le_mul_of_one_le_right positive one)
    have lower := mono positive
    omega
  · have lower := mono (show shortTicks k m ≤ m from mul_le_of_one_le_right negative one)
    have upper := mono negative
    omega

theorem roundTicks_long (m : ℤ) (short : m.natAbs < 10 ^ 27) :
    roundTicks (m * (1 / (k : ℚ))) = .ok (longTicks k m) := by
  apply roundTicks_eq
  by_cases zero : m = 0
  · simp [zero]
  · have quotient : (m : ℚ) * (1 / k) = Rat.divInt m k := by
      rw [Rat.divInt_eq_div, mul_one_div, Int.cast_natCast]
    have dvd : (Rat.divInt m k).num ∣ m := Rat.num_dvd m (by exact_mod_cast hk.ne')
    rw [quotient]
    exact (Nat.le_of_dvd (Int.natAbs_pos.mpr zero) (Int.natAbs_dvd_natAbs.mpr dvd)).trans_lt short

/-- Rounding to long ticks errs by at most half of one. -/
theorem abs_shortTicks_longTicks_sub_le (m : ℤ) :
    |((shortTicks k (longTicks k m) : ℤ) : ℚ) - m| ≤ (k : ℚ) / 2 := by
  have positive : (0 : ℚ) < k := by exact_mod_cast hk
  have near := abs_roundAway_sub_le ((m : ℚ) * (1 / k))
  have error : ((shortTicks k (longTicks k m) : ℤ) : ℚ) - m =
      (longTicks k m - m * (1 / k)) * k := by
    rw [shortTicks, Int.cast_mul, Int.cast_natCast]
    field_simp
  rw [error, abs_mul, abs_of_pos positive]
  calc |(longTicks k m : ℚ) - m * (1 / k)| * k
      ≤ 1 / 2 * k := mul_le_mul_of_nonneg_right near positive.le
    _ = k / 2 := by ring

end Long

/-! ### Nearby bounds -/

/-- An integer and one at most so far away, or the same number twice. -/
def Number.Near (tol : ℚ) : Number → Number → Prop
  | .int m, .int k => |(k : ℚ) - m| ≤ tol
  | x, y => y = x

/-- Both numbers of a bound have stayed nearby, and in order if they were. -/
structure Bound.Near (tol : ℚ) (b b' : Bound) : Prop where
  lo : b.lo.Near tol b'.lo
  hi : b.hi.Near tol b'.hi
  ordered : b.lo.le b.hi = true → b'.lo.le b'.hi = true

theorem Number.near_mapInt (tol : ℚ) (f : ℤ → ℤ) (h : ∀ m, |(f m : ℚ) - m| ≤ tol) (x : Number) :
    x.Near tol (x.mapInt f) := by
  cases x with
  | int m => exact h m
  | _ => rfl

theorem Bound.near_mapInt (tol : ℚ) (f : ℤ → ℤ) (h : ∀ m, |(f m : ℚ) - m| ≤ tol)
    (mono : Monotone f) (b : Bound) (hb : b.Integral) : b.Near tol (b.mapInt f) := by
  refine ⟨b.lo.near_mapInt tol f h, b.hi.near_mapInt tol f h, ?_⟩
  obtain ⟨back, forth, rfl⟩ := hb
  cases back using WithTop.recTopCoe with
  | top => cases forth using WithTop.recTopCoe <;> exact fun _ => rfl
  | coe m =>
    cases forth using WithTop.recTopCoe with
    | top => exact fun _ => rfl
    | coe n =>
      simp only [Bound.mapInt, ofDistances, Number.ofDistance_coe, Number.neg_int,
        Number.mapInt_int, Number.le_int, decide_eq_true_eq]
      exact fun h => mono h

theorem Constraints.near_mapInt (tol : ℚ) (f : ℤ → ℤ) (h : ∀ m, |(f m : ℚ) - m| ≤ tol)
    (mono : Monotone f) (c : Constraints) (integral : ∀ e ∈ c, e.2.Integral) :
    List.Forall₂ (fun e e' => e.1 = e'.1 ∧ e.2.Near tol e'.2) c (c.mapInt f) := by
  rw [Constraints.mapInt, List.forall₂_map_right_iff, List.forall₂_same]
  exact fun e he => ⟨rfl, e.2.near_mapInt tol f h mono (integral e he)⟩

/-! ### Both changes -/

/-- Moderate bounds are scaled, and the scaled ones scaled again. -/
theorem scaleAll_twice (c : Constraints) (integral : ∀ e ∈ c, e.2.Integral) (size size' : ℕ)
    (small : ∀ e ∈ c, e.2.Within size) (hsize : size ≤ Nat.pow 2 1023)
    (hsize' : size' ≤ Nat.pow 2 1023) (q q' : ℚ) (f g : ℤ → ℤ)
    (rounds : ∀ m : ℤ, m.natAbs ≤ size → roundTicks (m * q) = .ok (f m))
    (grows : ∀ m : ℤ, m.natAbs ≤ size → (f m).natAbs ≤ size')
    (rounds' : ∀ m : ℤ, m.natAbs ≤ size → roundTicks ((f m : ℤ) * q') = .ok (g (f m))) :
    Network.scaleAll q c = .ok (c.mapInt f) ∧
      Network.scaleAll q' (c.mapInt f) = .ok (c.mapInt fun m => g (f m)) := by
  have images : ∀ e ∈ c.mapInt f, ∃ e' ∈ c, e.2 = e'.2.mapInt f := by
    intro e he
    obtain ⟨e', he', rfl⟩ := List.mem_map.mp he
    exact ⟨e', he', rfl⟩
  constructor
  · refine (scaleAll_eq_ok_iff c integral q f ?_ _).mpr ⟨?_, rfl⟩
    · exact fun e he m hm => rounds m (small e he m hm)
    · exact fun e he => Bound.small_of_within (integral e he) (small e he) hsize
  · refine (scaleAll_eq_ok_iff _ ?_ q' g ?_ _).mpr ⟨?_, ?_⟩
    · intro e he
      obtain ⟨e', he', same⟩ := images e he
      exact same ▸ (integral e' he').mapInt f
    · intro e he k hk
      obtain ⟨e', he', same⟩ := images e he
      simp only [same, Bound.mapInt, Number.mapInt_eq_int_iff] at hk
      rcases hk with ⟨m, hm, rfl⟩ | ⟨m, hm, rfl⟩
      · exact rounds' m (small e' he' m (.inl hm))
      · exact rounds' m (small e' he' m (.inr hm))
    · intro e he
      obtain ⟨e', he', same⟩ := images e he
      rw [same]
      exact Bound.small_of_within ((integral e' he').mapInt f) ((small e' he').mapInt grows) hsize'
    · exact (c.mapInt_mapInt f g).symm

namespace Scale

theorem ratio_le (fine coarse : Scale) : fine.ratio coarse ≤ 86400000000 :=
  (Nat.div_le_self _ _).trans coarse.length_le

/-- The bounds of a network in another scale, and what becomes of them on the way back. -/
structure RoundTrip (s : Scale) (n : Network) (there back : Constraints) : Prop where
  scaled : Network.scaleAll ((s.current n).factor s) n.constraints = .ok there
  returned : Network.scaleAll (s.factor (s.current n)) there = .ok back
  finer : s.length ≤ (s.current n).length → back = n.constraints
  coarser : (s.current n).length ≤ s.length → List.Forall₂
    (fun e e' => e.1 = e'.1 ∧ e.2.Near ((s.current n).tolerance s) e'.2) n.constraints back

/-- The largest product of a moderate integer and a ratio. -/
def room : ℕ := 10 ^ 20 * 86400000000

theorem natAbs_shortTicks_le (fine coarse : Scale) (m : ℤ) (hm : m.natAbs ≤ 10 ^ 20) :
    (shortTicks (fine.ratio coarse) m).natAbs ≤ room := by
  rw [shortTicks, Int.natAbs_mul, Int.natAbs_natCast]
  exact Nat.mul_le_mul hm (fine.ratio_le coarse)

section RoundTrip

variable (s : Scale) (n : Network) (w : n.WellFormed)
  (small : ∀ e ∈ n.constraints, e.2.Within (10 ^ 20))
include w small

theorem roundTrip_of_finer (finer : s.length ≤ (s.current n).length) :
    s.RoundTrip n (n.constraints.mapInt (shortTicks (s.ratio (s.current n)))) n.constraints := by
  have integral : ∀ e ∈ n.constraints, e.2.Integral := fun e he => (w e he).integral
  have dvd := s.dvd_current n finer
  have pos := ratio_pos dvd
  obtain ⟨scaled, returned⟩ := scaleAll_twice n.constraints integral (10 ^ 20) room small
    (by decide +kernel) (by decide +kernel) ((s.current n).factor s) (s.factor (s.current n))
    (shortTicks (s.ratio (s.current n))) (longTicks (s.ratio (s.current n)))
    (fun m _ => by rw [factor_to_fine dvd]; exact roundTicks_short _ m)
    (fun m hm => natAbs_shortTicks_le s (s.current n) m hm)
    (fun m _ => by
      rw [factor_to_coarse dvd, longTicks_shortTicks _ pos, shortTicks_mul_inv _ pos]
      exact roundTicks_int m)
  simp only [longTicks_shortTicks _ pos, Constraints.mapInt_id] at returned
  refine ⟨scaled, returned, fun _ => rfl, fun _ => ?_⟩
  have near := Constraints.near_mapInt ((s.current n).tolerance s) (fun m => m) (fun m => by
    rw [sub_self, abs_zero]
    exact tolerance_nonneg _ _) monotone_id n.constraints integral
  rwa [Constraints.mapInt_id] at near

theorem roundTrip_of_coarser (coarser : (s.current n).length < s.length) :
    s.RoundTrip n (n.constraints.mapInt (longTicks ((s.current n).ratio s)))
      (n.constraints.mapInt fun m =>
        shortTicks ((s.current n).ratio s) (longTicks ((s.current n).ratio s) m)) := by
  have integral : ∀ e ∈ n.constraints, e.2.Integral := fun e he => (w e he).integral
  have dvd := s.current_dvd n coarser.le
  have pos := ratio_pos dvd
  obtain ⟨scaled, returned⟩ := scaleAll_twice n.constraints integral (10 ^ 20) (10 ^ 20) small
    (by decide +kernel) (by decide +kernel) ((s.current n).factor s) (s.factor (s.current n))
    (longTicks ((s.current n).ratio s)) (shortTicks ((s.current n).ratio s))
    (fun m hm => by
      rw [factor_to_coarse dvd]
      exact roundTicks_long _ pos m (hm.trans_lt (by decide)))
    (fun m hm => (natAbs_longTicks_le _ pos m).trans hm)
    (fun m _ => by rw [factor_to_fine dvd]; exact roundTicks_short _ _)
  refine ⟨scaled, returned, fun finer => absurd finer (not_le.mpr coarser), fun _ => ?_⟩
  apply Constraints.near_mapInt
  · intro m
    rw [tolerance_eq dvd]
    exact abs_shortTicks_longTicks_sub_le _ pos m
  · exact (shortTicks_mono _).comp (longTicks_mono _ pos)
  · exact integral

/-- The bounds of a moderate network can be scaled and scaled back, and stay moderate. -/
theorem exists_roundTrip : ∃ there back, s.RoundTrip n there back ∧
    (∀ e ∈ there, e.2.Within room) ∧ ∀ e ∈ back, e.2.Within room := by
  have within : ∀ f : ℤ → ℤ, (∀ m : ℤ, m.natAbs ≤ 10 ^ 20 → (f m).natAbs ≤ room) →
      ∀ e ∈ n.constraints.mapInt f, e.2.Within room := by
    intro f hf e he
    obtain ⟨e', he', rfl⟩ := List.mem_map.mp he
    exact (small e' he').mapInt hf
  have moderate : ∀ m : ℤ, m.natAbs ≤ 10 ^ 20 → m.natAbs ≤ room := fun m hm =>
    hm.trans (by decide)
  rcases le_or_gt s.length (s.current n).length with finer | coarser
  · refine ⟨_, _, s.roundTrip_of_finer n w small finer, ?_, ?_⟩
    · exact within _ (natAbs_shortTicks_le s (s.current n))
    · exact fun e he m hm => moderate m (small e he m hm)
  · have pos := ratio_pos (s.current_dvd n coarser.le)
    refine ⟨_, _, s.roundTrip_of_coarser n w small coarser, ?_, ?_⟩
    · exact within _ fun m hm => moderate _ ((natAbs_longTicks_le _ pos m).trans hm)
    · exact within _ fun m hm =>
        natAbs_shortTicks_le _ _ _ ((natAbs_longTicks_le _ pos m).trans hm)

end RoundTrip

namespace RoundTrip

variable {s : Scale} {n : Network} {there back : Constraints} (h : s.RoundTrip n there back)
  (w : n.WellFormed)
include h w

theorem fits : (∀ e ∈ there, Fits n.points e) ∧ ∀ e ∈ back, Fits n.points e := by
  have first := Network.scaleAll_fits w _ there h.scaled
  exact ⟨first,
    Network.scaleAll_fits (n := { n with constraints := there }) first _ back h.returned⟩

/-- Nothing is scaled where the scale is set already. -/
theorem there_eq (same : s = s.current n) : there = n.constraints := by
  have one : ((s.current n).factor s : ℚ) = ((1 : ℤ) : ℚ) := by
    rw [← same, factor, Rat.mkRat_eq_div]
    have nonzero : (s.length : ℚ) ≠ 0 := by exact_mod_cast s.length_pos.ne'
    simp [nonzero]
  have scaled := h.scaled
  rw [one] at scaled
  have kept := ((scaleAll_eq_ok_iff n.constraints (fun e he => (w e he).integral) _ (fun m => m)
    (fun e _ m _ => by rw [← Int.cast_mul, mul_one, roundTicks_int]) there).mp scaled).2
  rwa [Constraints.mapInt_id] at kept

section Back

variable (apart : s ≠ s.current n) (flag : Bool)

omit h w in
/-- The network that comes back is in the scale that was set. -/
theorem current_there : (s.current n).current { s.mark n there with consistent := flag } = s := by
  cases s <;> rfl

omit w in
theorem scaled_there : Network.scaleAll (((s.current n).current
      { s.mark n there with consistent := flag }).factor (s.current n))
    ({ s.mark n there with consistent := flag } : Network).constraints = .ok back := by
  rw [current_there flag]
  cases s <;> exact h.returned

theorem fits_there :
    ∀ e ∈ back, Fits ({ s.mark n there with consistent := flag } : Network).points e := by
  have points : ({ s.mark n there with consistent := flag } : Network).points = n.points := by
    cases s <;> rfl
  rw [points]
  exact (h.fits w).2

include apart

omit h w in
theorem apart_there : s.current n ≠ (s.current n).current
    { s.mark n there with consistent := flag } := by
  rw [current_there flag]
  exact apart.symm

/-- The way back ends exactly when the bounds scaled twice can be checked. -/
theorem set_back (m : Network) :
    (s.current n).set { s.mark n there with consistent := flag } = .ok m ↔
      Network.Addable { n with constraints := back } ∧ m = { n with
        constraints := back
        consistent := (Network.report { n with constraints := back }).consistent } := by
  refine (set_eq_ok_iff (s.current n) _ back (apart_there apart flag) (h.scaled_there flag)
    (h.fits_there w flag) m).trans ?_
  cases s <;> rfl

theorem set_back_fault (e : Fault)
    (refused : (s.current n).set { s.mark n there with consistent := flag } = .error e) :
    e = .tooLarge :=
  (s.current n).set_fault _ back (apart_there apart flag) (h.scaled_there flag)
    (h.fits_there w flag) e refused

end Back

end RoundTrip

end Scale

namespace Network

/-- A network of 920 points leaves room for moderate bounds in every scale. -/
theorem addable_of_room (n : Network) (cs : Constraints) (fits : ∀ e ∈ cs, Fits n.points e)
    (within : ∀ e ∈ cs, e.2.Within Scale.room) (few : n.size ≤ 920) :
    Addable { n with constraints := cs } := by
  have fewer : ∀ most limit : ℕ, n.size ≤ most → Nat.pow 2 most * Scale.room ≤ limit →
      2 ^ n.size * Scale.room ≤ limit := fun most _ h =>
    (Nat.mul_le_mul_right Scale.room (Nat.pow_le_pow_right (by decide) h)).trans
  exact addable_of_small { n with constraints := cs } fits Scale.room within
    (fewer 920 _ few (by decide +kernel))

end Network

/-! ## What comes back -/

/-- Moderate bounds of a reachable network can be scaled to every level and unit and back. The
network is set there, and back, exactly when it can be checked with these bounds, which 920 points
do not prevent; it has met a number that is too large otherwise. -/
theorem Network.set_there_and_back (n : Network) (r : n.Reachable)
    (small : ∀ e ∈ n.constraints, e.2.Within (10 ^ 20)) (s : Scale) :
    ∃ there back, s.RoundTrip n there back ∧
      ((∃ m, s.set n = .ok m) ↔
        s = s.current n ∨ Network.Addable { n with constraints := there }) ∧
      (∀ e, s.set n = .error e → e = .tooLarge) ∧
      (∀ m, s.set n = .ok m → m.constraints = there ∧
        ((∃ m', (s.current n).set m = .ok m') ↔
          s = s.current n ∨ Network.Addable { n with constraints := back }) ∧
        (∀ e, (s.current n).set m = .error e → e = .tooLarge) ∧
        ∀ m', (s.current n).set m = .ok m' →
          m' = { n with constraints := back, consistent := m'.consistent }) ∧
      (n.size ≤ 920 → ∃ m m', s.set n = .ok m ∧ (s.current n).set m = .ok m') := by
  have w := r.wellFormed
  obtain ⟨there, back, trip, moderate, moderateBack⟩ := s.exists_roundTrip n w small
  obtain ⟨fits, fitsBack⟩ := trip.fits w
  refine ⟨there, back, trip, ?_⟩
  by_cases same : s = s.current n
  · have stays := s.set_current n same
    have staysBack := (s.current n).set_current n (by cases s <;> rfl)
    have unscaled := trip.there_eq w same
    have unchanged := trip.finer (by rw [← same])
    refine ⟨iff_of_true ⟨n, stays⟩ (.inl same), fun e he => ?_, ?_,
      fun _ => ⟨n, n, stays, staysBack⟩⟩
    · cases stays.symm.trans he
    intro m hm
    obtain rfl := Except.ok.inj (stays.symm.trans hm)
    refine ⟨unscaled.symm, iff_of_true ⟨n, staysBack⟩ (.inl same), fun e he => ?_, ?_⟩
    · cases staysBack.symm.trans he
    intro m' hm'
    obtain rfl := Except.ok.inj (staysBack.symm.trans hm')
    rw [unchanged]
  · have sets := s.set_eq_ok_iff n there same trip.scaled fits
    have returns := trip.set_back w same
    refine ⟨?_, s.set_fault n there same trip.scaled fits, ?_, ?_⟩
    · simp [sets, same]
    · intro m hm
      obtain ⟨-, rfl⟩ := (sets m).mp hm
      refine ⟨s.mark_constraints n there, ?_, trip.set_back_fault w same _, ?_⟩
      · simp [returns, same]
      · intro m' hm'
        obtain ⟨-, rfl⟩ := (returns _ m').mp hm'
        rfl
    · intro few
      exact ⟨_, _, (sets _).mpr ⟨n.addable_of_room there fits moderate few, rfl⟩,
        (returns _ _).mpr ⟨n.addable_of_room back fitsBack moderateBack few, rfl⟩⟩

theorem Relay.network_moderate : ∀ e ∈ Relay.network.constraints, e.2.Within (10 ^ 20) := by
  simp [Relay.network_constraints, Bound.Within, or_imp, forall_and]

/-- In milliseconds and back nothing changes. In tens of seconds the five seconds of the second leg
are half a tick, which becomes a whole one. -/
theorem Relay.there_and_back :
    Relay.network.Reachable ∧ (∀ e ∈ Relay.network.constraints, e.2.Within (10 ^ 20)) ∧
      (∃ m m', Relay.network.setUnit .millisecond = .ok m ∧ m.setUnit .second = .ok m' ∧
        m'.constraints = Relay.network.constraints) ∧
      ∃ m m', Relay.network.setDetail .low = .ok m ∧ m.setDetail .medium = .ok m' ∧
        List.Forall₂ (fun e e' => e.1 = e'.1 ∧ e.2.Near (Detail.tolerance .medium .low) e'.2)
          Relay.network.constraints m'.constraints ∧
        m'.get? "handover" "finish" = some ⟨.int 10, .posInf⟩ := by
  refine ⟨Relay.network_reachable, Relay.network_moderate, ?_, ?_⟩
  · obtain ⟨there, back, trip, -, -, sets, few⟩ := Relay.network.set_there_and_back
      Relay.network_reachable Relay.network_moderate (.unit .millisecond)
    obtain ⟨m, m', hm, hm'⟩ := few (by decide)
    have returned := congrArg Network.constraints ((sets m hm).2.2.2 m' hm')
    exact ⟨m, m', hm, hm', returned.trans (trip.finer (by decide))⟩
  · obtain ⟨there, back, trip, -, -, sets, few⟩ := Relay.network.set_there_and_back
      Relay.network_reachable Relay.network_moderate (.detail .low)
    obtain ⟨m, m', hm, hm'⟩ := few (by decide)
    have returned : m'.constraints = back :=
      congrArg Network.constraints ((sets m hm).2.2.2 m' hm')
    have scaled : (Network.scaleAll (Detail.factor .medium .low) Relay.network.constraints >>=
        fun cs => Network.scaleAll (Detail.factor .low .medium) cs).toOption.map
          (fun cs => cs.find? samePair ("handover", "finish")) =
        some (some ⟨.int 10, .posInf⟩) := by decide +kernel
    have there' : Network.scaleAll (Detail.factor .medium .low) Relay.network.constraints =
        .ok there := trip.scaled
    have back' : Network.scaleAll (Detail.factor .low .medium) there = .ok back := trip.returned
    rw [there', ok_bind, back'] at scaled
    refine ⟨m, m', hm, hm', ?_, ?_⟩
    · rw [returned, ← Scale.tolerance_detail]
      exact trip.coarser (by decide)
    · rw [Network.get?, returned]
      exact Option.some.inj scaled

end Chronoplan
