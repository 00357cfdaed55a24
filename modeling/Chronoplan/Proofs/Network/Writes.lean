import Chronoplan.Network.Interval
import Chronoplan.Proofs.Network.Check
import Chronoplan.Proofs.Tables

/-!
# Reachable networks

The writes of a network, and the networks that accepted writes reach from an empty one. When the
numbers of every written bound are integers or infinite, each write keeps a network well formed,
and so every reachable network is.
-/

set_option autoImplicit false

namespace Chronoplan

/-- An integer, or infinite. -/
def Number.Integral (x : Number) : Prop := ∃ a, x = ofDistance a ∨ x = (ofDistance a).neg

theorem Number.Integral.cases {x : Number} (h : x.Integral) :
    x = .posInf ∨ x = .negInf ∨ ∃ k : ℤ, x = .int k := by
  obtain ⟨d, hd | hd⟩ := h
  · cases d using WithTop.recTopCoe with
    | top => exact .inl hd
    | coe m => exact .inr (.inr ⟨m, hd⟩)
  · cases d using WithTop.recTopCoe with
    | top => exact .inr (.inl hd)
    | coe m => exact .inr (.inr ⟨-m, hd⟩)

/-- A value that is an integer or infinite if it is a number at all. -/
def Value.Integral (v : Value) : Prop := ∀ x, v = .num x → x.Integral

theorem Value.Integral.ofInt (m : ℤ) : (Value.int m).Integral := by
  rintro x ⟨⟩
  exact ⟨m, .inl rfl⟩

/-- All numbers that an interval is asked with are integers or infinite. -/
structure IntervalSpec.Integral (spec : IntervalSpec) : Prop where
  duration : spec.duration.Integral
  parts : ∀ parts, spec.duration = .tuple parts → ∀ p ∈ parts, p.Integral
  start : spec.start.Integral
  finish : spec.finish.Integral

/-- What is accepted as a bound is a pair of numbers in order, neither infinite on the wrong side. -/
theorem ofValues_eq_ok (lo hi : Value) (b : Bound) (h : Bound.ofValues lo hi = .ok b) :
    lo = .num b.lo ∧ hi = .num b.hi ∧ b.lo ≠ .posInf ∧ b.hi ≠ .negInf ∧
      b.lo.le b.hi = true := by
  unfold Bound.ofValues at h
  obtain ⟨found, hf, hb⟩ := (bind_eq_ok_iff _ _ _).mp h
  cases found with
  | none => cases hb
  | some b' =>
    cases hb
    unfold Bound.ofValues? at hf
    split at hf
    · cases hf
    · cases hf
    · cases hf
    · cases hf
    · next x y _ _ _ _ =>
      obtain ⟨p, hp, hf⟩ := (bind_eq_ok_iff _ _ _).mp hf
      split at hf
      · cases hf
      obtain ⟨q, hq, hf⟩ := (bind_eq_ok_iff _ _ _).mp hf
      split at hf
      · cases hf
      split at hf
      · cases hf
      next hside =>
        have hxy := Except.ok.inj hf
        split at hxy
        · next order =>
          cases hxy
          refine ⟨rfl, rfl, ?_, ?_, order⟩
          · rintro rfl
            cases hp
            exact hside (.inl rfl)
          · rintro rfl
            cases hq
            exact hside (.inr rfl)
        · cases hxy
    · cases hf

theorem ofValues_integral (lo hi : Value) (b : Bound) (hlo : lo.Integral) (hhi : hi.Integral)
    (h : Bound.ofValues lo hi = .ok b) : b.Integral := by
  obtain ⟨rfl, rfl, low, high, -⟩ := ofValues_eq_ok lo hi b h
  have back : ∃ back, b.lo = (Number.ofDistance back).neg := by
    obtain ⟨a, ha | ha⟩ := hlo b.lo rfl
    · cases a using WithTop.recTopCoe with
      | top => exact absurd ha low
      | coe m => exact ⟨_, ha.trans (Number.int_eq_neg_ofDistance m)⟩
    · exact ⟨a, ha⟩
  have forth : ∃ forth, b.hi = Number.ofDistance forth := by
    obtain ⟨a, ha | ha⟩ := hhi b.hi rfl
    · exact ⟨a, ha⟩
    · cases a using WithTop.recTopCoe with
      | top => exact absurd ha high
      | coe m => exact ⟨((-m : ℤ) : WithTop ℤ), ha⟩
  obtain ⟨back, hback⟩ := back
  obtain ⟨forth, hforth⟩ := forth
  exact ⟨back, forth, by rw [Bound.ofDistances, ← hback, ← hforth]⟩

theorem ofValues_uncrossed (lo hi : Value) (b : Bound) (hlo : lo.Integral) (hhi : hi.Integral)
    (h : Bound.ofValues lo hi = .ok b) : b.crossed = false := by
  obtain ⟨-, -, -, -, order⟩ := ofValues_eq_ok lo hi b h
  exact (ofValues_integral lo hi b hlo hhi h).crossed_of_le b order

theorem ofValues_self (v : Value) (b : Bound) (hv : v.Integral) (h : Bound.ofValues v v = .ok b) :
    ∃ m : ℤ, v = .int m := by
  obtain ⟨hlo, hhi, low, high, -⟩ := ofValues_eq_ok v v b h
  have same : b.lo = b.hi := Value.num.inj (hlo.symm.trans hhi)
  obtain ⟨a, ha⟩ := hv b.lo hlo
  cases a using WithTop.recTopCoe with
  | top =>
    rcases ha with ha | ha
    · exact absurd ha low
    · exact absurd (same ▸ ha) high
  | coe m =>
    rcases ha with ha | ha
    · exact ⟨m, by rw [hlo, ha]; rfl⟩
    · exact ⟨-m, by rw [hlo, ha]; rfl⟩

theorem Number.Integral.toBinary64_eq {x : Number} (h : x.Integral)
    (near : x.toBinary64?.isSome = true) : ∃ y, x.toBinary64 = .ok y ∧ y.isNaN = false ∧
      (y = .posInf → x = .posInf) ∧ (y = .negInf → x = .negInf) := by
  obtain rfl | rfl | ⟨k, rfl⟩ := h.cases
  · exact ⟨.posInf, rfl, rfl, fun _ => rfl, fun h => by cases h⟩
  · exact ⟨.negInf, rfl, rfl, fun h => (by cases h), fun _ => rfl⟩
  · obtain ⟨y, hy⟩ := Option.isSome_iff_exists.mp near
    have near : Number.toBinary64?.nearest (k : Rat) = some y := hy
    refine ⟨y, (orFault_eq_ok_iff _ _ _).mpr hy, ?_⟩
    unfold Number.toBinary64?.nearest at near
    rcases Binary64.ofRat_cases k with hq | hq | hq | ⟨p, hq⟩ <;> rw [hq] at near <;> cases near <;>
      simp [Binary64.isNaN]

/-- Neither number of a bound is too large for a binary64. -/
def Bound.Small (b : Bound) : Prop :=
  b.lo.toBinary64?.isSome = true ∧ b.hi.toBinary64?.isSome = true

instance (b : Bound) : Decidable b.Small := inferInstanceAs (Decidable (_ ∧ _))

theorem Bound.Integral.lo_integral {b : Bound} (h : b.Integral) : b.lo.Integral := by
  obtain ⟨back, -, rfl⟩ := h
  exact ⟨back, .inr rfl⟩

theorem Bound.Integral.hi_integral {b : Bound} (h : b.Integral) : b.hi.Integral := by
  obtain ⟨-, forth, rfl⟩ := h
  exact ⟨forth, .inl rfl⟩

/-- A bound of integers, or of infinite numbers on their own side, is accepted when its numbers are
in order, unless an integer is too large. -/
theorem ofValues?_of_integral (b : Bound) (h : b.Integral) :
    Bound.ofValues? (.num b.lo) (.num b.hi) =
      if b.Small then .ok (if b.crossed then none else some b) else .error .tooLarge := by
  have unfolds : Bound.ofValues? (.num b.lo) (.num b.hi) = b.lo.toBinary64 >>= fun x =>
      if x.isNaN then .ok none else b.hi.toBinary64 >>= fun y =>
        if y.isNaN then .ok none
        else if x = .posInf ∨ y = .negInf then .ok none
        else .ok (if b.lo.le b.hi then some b else none) := by
    obtain ⟨back, forth, rfl⟩ := h
    cases back using WithTop.recTopCoe <;> cases forth using WithTop.recTopCoe <;> rfl
  rw [unfolds]
  by_cases nearLow : b.lo.toBinary64?.isSome = true
  · obtain ⟨x, hx, numberX, topX, -⟩ := h.lo_integral.toBinary64_eq nearLow
    by_cases nearHigh : b.hi.toBinary64?.isSome = true
    · obtain ⟨y, hy, numberY, -, botY⟩ := h.hi_integral.toBinary64_eq nearHigh
      have proper : ¬ (x = .posInf ∨ y = .negInf) := by
        rintro (top | bot)
        · exact h.lo_ne_posInf b (topX top)
        · exact h.hi_ne_negInf b (botY bot)
      have small : b.Small := ⟨nearLow, nearHigh⟩
      simp only [hx, hy, ok_bind, numberX, numberY, Bool.false_eq_true, if_false, proper, small,
        if_true, h.le_iff]
      by_cases ordered : b.crossed = true <;> simp [ordered]
    · have large : ¬ b.Small := fun both => nearHigh both.2
      have far : b.hi.toBinary64 = .error .tooLarge := by
        rw [Number.toBinary64, Option.not_isSome_iff_eq_none.mp nearHigh, orFault]
      simp only [hx, far, ok_bind, numberX, Bool.false_eq_true, if_false, large]
      rfl
  · have large : ¬ b.Small := fun both => nearLow both.1
    have far : b.lo.toBinary64 = .error .tooLarge := by
      rw [Number.toBinary64, Option.not_isSome_iff_eq_none.mp nearLow, orFault]
    simp only [far, large, if_false]
    rfl

/-- An accepted bound of integers, or of infinite numbers on their own side. -/
structure Bound.Usable (b : Bound) : Prop where
  integral : b.Integral
  ordered : b.crossed = false
  small : b.Small

theorem ofValues_eq_ok_iff (b c : Bound) (h : b.Integral) :
    Bound.ofValues (.num b.lo) (.num b.hi) = .ok c ↔ b.Usable ∧ c = b := by
  rw [Bound.ofValues, ofValues?_of_integral b h]
  by_cases small : b.Small
  · cases ordered : b.crossed with
    | true =>
      simp only [small, if_true, ok_bind]
      refine iff_of_false (fun h => by cases h) fun usable => ?_
      exact Bool.false_ne_true (usable.1.ordered.symm.trans ordered)
    | false =>
      simp only [small, if_true, ok_bind]
      exact ⟨fun same => ⟨⟨h, ordered, small⟩, (Except.ok.inj same).symm⟩,
        fun usable => congrArg Except.ok usable.2.symm⟩
  · simp only [small, if_false]
    exact iff_of_false (fun h => by cases h) fun usable => small usable.1.small

/-- A bound in order is only refused for an integer that is too large. -/
theorem ofValues_fault (b : Bound) (h : b.Integral) (ordered : b.crossed = false) (e : Fault)
    (refused : Bound.ofValues (.num b.lo) (.num b.hi) = .error e) : e = .tooLarge := by
  rw [Bound.ofValues, ofValues?_of_integral b h, ordered] at refused
  by_cases small : b.Small
  · rw [if_pos small] at refused
    cases refused
  · rw [if_neg small] at refused
    exact (Except.error.inj refused).symm

theorem mem_insertPoint (p q : String) (points : List String) :
    q ∈ insertPoint p points ↔ q = p ∨ q ∈ points := by
  induction points with
  | nil => simp [insertPoint]
  | cons r rest ih =>
    unfold insertPoint
    split_ifs with heq hlt
    · rw [heq, List.mem_cons]
      tauto
    · rw [List.mem_cons]
    · rw [List.mem_cons, List.mem_cons, ih]
      tauto

/-- What holds of all constraints and of a new one, alone or met with the old one on its pair,
holds after narrowing. -/
theorem narrow_forall (P : (String × String) × Bound → Prop) (key : String × String) (b : Bound)
    (c : Constraints) (hc : ∀ e ∈ c, P e) (hb : P (key, b))
    (hmeet : ∀ old, P (key, old) → P (key, old.meet b)) : ∀ e ∈ (c.narrow key b).1, P e := by
  intro e he
  unfold Constraints.narrow at he
  cases hf : c.find? samePair key with
  | none =>
    rw [hf] at he
    rcases mem_insert key b c e he with hmem | rfl
    · exact hc e hmem
    · exact hb
  | some old =>
    rw [hf] at he
    rcases mem_insert key (old.meet b) c e he with hmem | rfl
    · exact hc e hmem
    · exact hmeet old (hc _ (mem_of_find? key old c hf))

theorem Fits.meet {points : List String} {key : String × String} {b : Bound}
    (hb : Fits points (key, b)) (old : Bound) (hold : Fits points (key, old)) :
    Fits points (key, old.meet b) :=
  ⟨hold.first, hold.second, hold.integral.meet old b hb.integral⟩

theorem scaleBound_int (m : ℤ) (factor : Rat) (y : Number)
    (h : scaleBound (.int m) factor = .ok y) :
    ∃ k : ℤ, roundTicks (m * factor) = .ok k ∧ y = .int k := by
  obtain ⟨x, hx, h⟩ := (bind_eq_ok_iff _ _ _).mp h
  have finite : x.isInfinite = false := nearest_not_isInfinite m x ((orFault_eq_ok_iff _ _ _).mp hx)
  rw [if_neg (by simp [finite])] at h
  obtain ⟨q, hq, h⟩ := (bind_eq_ok_iff _ _ _).mp h
  obtain ⟨k, hk, h⟩ := (bind_eq_ok_iff _ _ _).mp h
  cases h
  cases hq
  exact ⟨k, hk, rfl⟩

theorem scaleBound_ofDistance (a : WithTop ℤ) (factor : Rat) (y : Number)
    (h : scaleBound (.ofDistance a) factor = .ok y) : ∃ c, y = .ofDistance c := by
  cases a using WithTop.recTopCoe with
  | top =>
    cases h
    exact ⟨⊤, rfl⟩
  | coe m =>
    obtain ⟨k, -, rfl⟩ := scaleBound_int m factor y h
    exact ⟨k, rfl⟩

theorem scaleBound_neg_ofDistance (a : WithTop ℤ) (factor : Rat) (y : Number)
    (h : scaleBound (Number.ofDistance a).neg factor = .ok y) :
    ∃ c, y = (Number.ofDistance c).neg := by
  cases a using WithTop.recTopCoe with
  | top =>
    cases h
    exact ⟨⊤, rfl⟩
  | coe m =>
    obtain ⟨k, -, rfl⟩ := scaleBound_int (-m) factor y h
    exact ⟨_, Number.int_eq_neg_ofDistance k⟩

namespace Network

variable {n m : Network}

theorem wellFormed_empty (unit : TimeUnit) (detail : Detail) (parallel : Bool) (workers : Int) :
    (empty unit detail parallel workers).WellFormed := by
  intro e he
  cases he

theorem WellFormed.mono (w : n.WellFormed) (points : ∀ p ∈ n.points, p ∈ m.points)
    (constraints : ∀ e ∈ m.constraints, e ∈ n.constraints) : m.WellFormed := by
  intro e he
  have fits := w e (constraints e he)
  exact ⟨points _ fits.first, points _ fits.second, fits.integral⟩

theorem addPoint_wellFormed (w : n.WellFormed) (p : String) : (n.addPoint p).WellFormed :=
  w.mono (fun _ hq => (mem_insertPoint p _ n.points).mpr (.inr hq)) fun _ he => he

theorem addBound_wellFormed (w : n.WellFormed) (a b : String) (bound : Bound)
    (hbound : bound.Integral) : (n.addBound a b bound).WellFormed := by
  have mem_a : a ∈ (n.addBound a b bound).points := by simp [addBound, mem_insertPoint]
  have mem_b : b ∈ (n.addBound a b bound).points := by simp [addBound, mem_insertPoint]
  have old : ∀ e ∈ n.constraints, Fits (n.addBound a b bound).points e := by
    intro e he
    have fits := w e he
    exact ⟨by simp [addBound, mem_insertPoint, fits.first],
      by simp [addBound, mem_insertPoint, fits.second], fits.integral⟩
  have forward : Fits (n.addBound a b bound).points ((a, b), bound) := ⟨mem_a, mem_b, hbound⟩
  have reverse : Fits (n.addBound a b bound).points ((b, a), bound.negate) :=
    ⟨mem_b, mem_a, hbound.negate bound⟩
  exact narrow_forall _ _ _ _ (narrow_forall _ _ _ _ old forward forward.meet) reverse reverse.meet

/-- Of a network that is checked again only the flag is written. -/
theorem recheck_eq_ok_iff :
    n.recheck = .ok m ↔ ∃ b, n.isConsistent = .ok b ∧ m = { n with consistent := b } := by
  rw [recheck, bind_eq_ok_iff]
  constructor
  · rintro ⟨b, hb, hm⟩
    exact ⟨b, hb, (Except.ok.inj hm).symm⟩
  · rintro ⟨b, hb, rfl⟩
    exact ⟨b, hb, rfl⟩

theorem recheck_fault (w : n.WellFormed) (e : Fault) (h : n.recheck = .error e) :
    e = .tooLarge := by
  obtain h | ⟨flag, -, h⟩ := (bind_eq_error_iff _ _ _).mp h
  · obtain h | ⟨r, -, h⟩ := (bind_eq_error_iff _ _ _).mp h
    · exact n.check_fault w e h
    · cases h
  · cases h

theorem recheck_wellFormed (w : n.WellFormed) (h : n.recheck = .ok m) : m.WellFormed := by
  obtain ⟨b, -, rfl⟩ := recheck_eq_ok_iff.mp h
  exact w.mono (fun _ hp => hp) fun _ he => he

theorem withMetadata_wellFormed (w : n.WellFormed) (id : String) (data : Metadata) :
    (n.withMetadata id data).WellFormed :=
  w.mono (fun _ hp => hp) fun _ he => he

/-- A bound is worth storing when it limits the time one way at least. -/
theorem worthStoring_ofDistances (back forth : WithTop ℤ) (worth : Bool)
    (h : worthStoring (.ofDistances back forth) = .ok worth) :
    worth = true ↔ back ≠ ⊤ ∨ forth ≠ ⊤ := by
  obtain ⟨x, hx, h⟩ := (bind_eq_ok_iff _ _ _).mp h
  cases forth using WithTop.recTopCoe with
  | top =>
    cases hx
    obtain ⟨y, hy, h⟩ := (bind_eq_ok_iff _ _ _).mp h
    cases h
    cases back using WithTop.recTopCoe with
    | top =>
      cases hy
      simp [Binary64.isInfinite, Binary64.neg]
    | coe m => simp [nearest_not_isInfinite _ _ ((orFault_eq_ok_iff _ _ _).mp hy)]
  | coe m =>
    rw [nearest_not_isInfinite _ _ ((orFault_eq_ok_iff _ _ _).mp hx)] at h
    cases h
    simp

/-- The bound that the shortest distances leave between two points. -/
def tightest (n : Network) (u v : String) : Bound :=
  .ofDistances (n.closed (placeIn n.points v) (placeIn n.points u))
    (n.closed (placeIn n.points u) (placeIn n.points v))

theorem tightest_integral (n : Network) (u v : String) : (n.tightest u v).Integral := ⟨_, _, rfl⟩

theorem derivedPair_eq_ok_iff (u v : String) (hu : u ∈ n.points) (hv : v ∈ n.points)
    (e : (String × String) × Bound) :
    (n.report.derived u v >>= fun b => .ok ((u, v), b)) = .ok e ↔ e = ((u, v), n.tightest u v) := by
  rw [report_derived n u v hu hv, ok_bind, Except.ok.injEq]
  exact eq_comm

theorem mem_pairs_iff (points : List String) (u v : String) :
    (u, v) ∈ (points.flatMap fun a => (points.filter (a != ·)).map fun b => (a, b)) ↔
      u ∈ points ∧ v ∈ points ∧ u ≠ v := by
  simp

/-- The bounds of all pairs, before those that limit nothing are left out. -/
theorem mem_bounds_iff (bounds : List ((String × String) × Bound))
    (h : (n.report.points.flatMap fun a => (n.report.points.filter (a != ·)).map fun b => (a, b)).mapM
      (fun p => n.report.derived p.1 p.2 >>= fun b => .ok (p, b)) = .ok bounds)
    (e : (String × String) × Bound) :
    e ∈ bounds ↔ ∃ u ∈ n.points, ∃ v ∈ n.points, u ≠ v ∧ e = ((u, v), n.tightest u v) := by
  constructor
  · intro found
    obtain ⟨⟨u, v⟩, hp, hb⟩ := mem_of_mapM _ _ _ h e found
    obtain ⟨hu, hv, apart⟩ := (mem_pairs_iff n.points u v).mp hp
    exact ⟨u, hu, v, hv, apart, (derivedPair_eq_ok_iff u v hu hv e).mp hb⟩
  · rintro ⟨u, hu, v, hv, apart, rfl⟩
    obtain ⟨e, found, hb⟩ := exists_of_mapM _ _ _ h (u, v)
      ((mem_pairs_iff n.points u v).mpr ⟨hu, hv, apart⟩)
    rwa [(derivedPair_eq_ok_iff u v hu hv e).mp hb] at found

/-- Derived are the bounds between different points that limit their time one way at least. -/
theorem mem_derivedConstraints_iff (cs : Constraints) (h : derivedConstraints n.report = .ok cs)
    (e : (String × String) × Bound) :
    e ∈ cs ↔ ∃ u ∈ n.points, ∃ v ∈ n.points, u ≠ v ∧ e = ((u, v), n.tightest u v) ∧
      (n.closed (placeIn n.points v) (placeIn n.points u) ≠ ⊤ ∨
        n.closed (placeIn n.points u) (placeIn n.points v) ≠ ⊤) := by
  obtain ⟨bounds, hbounds, hcs⟩ := (bind_eq_ok_iff _ _ _).mp h
  obtain ⟨keep, answers, rfl⟩ := exists_filter_of_filterM _ _ _ hcs
  have worth : ∀ u v, ((u, v), n.tightest u v) ∈ bounds →
      (keep ((u, v), n.tightest u v) = true ↔ _) :=
    fun u v found => worthStoring_ofDistances _ _ _ (answers _ found)
  rw [List.mem_filter]
  constructor
  · rintro ⟨found, kept⟩
    obtain ⟨u, hu, v, hv, apart, rfl⟩ := (mem_bounds_iff bounds hbounds e).mp found
    exact ⟨u, hu, v, hv, apart, rfl, (worth u v found).mp kept⟩
  · rintro ⟨u, hu, v, hv, apart, rfl, finite⟩
    have found := (mem_bounds_iff bounds hbounds _).mpr ⟨u, hu, v, hv, apart, rfl⟩
    exact ⟨found, (worth u v found).mpr finite⟩

theorem derivedConstraints_fits (cs : Constraints) (h : derivedConstraints n.report = .ok cs) :
    ∀ e ∈ cs, Fits n.points e := by
  intro e he
  obtain ⟨u, hu, v, hv, -, rfl, -⟩ := (mem_derivedConstraints_iff cs h e).mp he
  exact ⟨hu, hv, n.tightest_integral u v⟩

/-- What becomes of a network that is propagated, once it can be checked. -/
theorem propagate_eq_ok_iff (w : n.WellFormed) : n.propagate = .ok m ↔ n.Addable ∧
    ((n.report.consistent = true ∧ ∃ cs, derivedConstraints n.report = .ok cs ∧
        m = { n with constraints := cs, consistent := true }) ∨
      n.report.consistent = false ∧ m = { n with consistent := false }) := by
  unfold propagate
  constructor
  · intro h
    obtain ⟨r, hr, h⟩ := (bind_eq_ok_iff _ _ _).mp h
    obtain ⟨ha, rfl⟩ := (check_eq_ok_iff n w r).mp hr
    refine ⟨ha, ?_⟩
    split at h
    · next found =>
      obtain ⟨cs, hcs, h⟩ := (bind_eq_ok_iff _ _ _).mp h
      exact .inl ⟨found, cs, hcs, (Except.ok.inj h).symm⟩
    · next conflict => exact .inr ⟨by simpa using conflict, (Except.ok.inj h).symm⟩
  · rintro ⟨ha, ⟨found, cs, hcs, rfl⟩ | ⟨conflict, rfl⟩⟩
    · simp [(check_eq_ok_iff n w _).mpr ⟨ha, rfl⟩, found, hcs]
    · simp [(check_eq_ok_iff n w _).mpr ⟨ha, rfl⟩, conflict]

theorem propagate_wellFormed (w : n.WellFormed) (h : n.propagate = .ok m) : m.WellFormed := by
  obtain ⟨-, ⟨-, cs, hcs, rfl⟩ | ⟨-, rfl⟩⟩ := (propagate_eq_ok_iff w).mp h
  · exact derivedConstraints_fits (n := n) cs hcs
  · exact w.mono (fun _ hp => hp) fun _ he => he

theorem scaleAll_fits (w : n.WellFormed) (factor : Rat) (cs : Constraints)
    (h : scaleAll factor n.constraints = .ok cs) : ∀ e ∈ cs, Fits n.points e := by
  intro e he
  obtain ⟨old, hold, h⟩ := mem_of_mapM _ _ _ h e he
  have fits := w old hold
  obtain ⟨back, forth, hb⟩ := fits.integral
  obtain ⟨lo, hlo, h⟩ := (bind_eq_ok_iff _ _ _).mp h
  obtain ⟨hi, hhi, h⟩ := (bind_eq_ok_iff _ _ _).mp h
  cases h
  rw [hb] at hlo hhi
  obtain ⟨back', rfl⟩ := scaleBound_neg_ofDistance back factor lo hlo
  obtain ⟨forth', rfl⟩ := scaleBound_ofDistance forth factor hi hhi
  exact ⟨fits.first, fits.second, back', forth', rfl⟩

theorem ticksOf_integral (v ticks : Value) (hv : v.Integral) (h : n.ticksOf v = .ok ticks) :
    ticks.Integral := by
  unfold ticksOf at h
  split at h
  · obtain ⟨k, -, h⟩ := (bind_eq_ok_iff _ _ _).mp h
    cases h
    exact .ofInt k
  · cases h
    exact hv

/-- A duration that is accepted has exactly the two parts that are answered, of which the lower one
is not negative. -/
theorem durationBounds_parts (parts : List Value) (lo hi : Value)
    (h : durationBounds parts = .ok (lo, hi)) : parts = [lo, hi] ∧ lo.lt (.int 0) = .ok false := by
  cases parts with
  | nil => cases h
  | cons first rest =>
    obtain ⟨below, hbelow, h⟩ := (bind_eq_ok_iff _ _ _).mp h
    cases below with
    | true => cases h
    | false =>
      match rest, h with
      | [second], h =>
        cases h
        exact ⟨rfl, hbelow⟩

theorem durationPair_integral (duration lo hi : Value) (hd : duration.Integral)
    (hparts : ∀ parts, duration = .tuple parts → ∀ p ∈ parts, p.Integral)
    (h : n.durationPair duration = .ok (lo, hi)) : lo.Integral ∧ hi.Integral := by
  unfold durationPair at h
  simp only at h
  split at h
  · obtain ⟨ticks, -, h⟩ := (bind_eq_ok_iff _ _ _).mp h
    cases (durationBounds_parts [.int ticks, .int ticks] lo hi h).1
    exact ⟨.ofInt ticks, .ofInt ticks⟩
  · cases (durationBounds_parts _ _ _ h).1
    exact ⟨hparts _ rfl lo (by simp), hparts _ rfl hi (by simp)⟩
  · cases (durationBounds_parts [duration, duration] lo hi h).1
    exact ⟨hd, hd⟩

theorem anchor_int (p : String) (v : Value) (hv : v.Integral) (given : v ≠ .null)
    (h : n.anchor p v = .ok m) : ∃ k : ℤ, v = .int k := by
  unfold anchor at h
  split at h
  · exact absurd rfl given
  · obtain ⟨b, hb, -⟩ := (bind_eq_ok_iff _ _ _).mp h
    exact ofValues_self v b hv hb

theorem specDuration_cases (spec : IntervalSpec) (start finish lo hi : Value)
    (h : n.specDuration spec start finish = .ok (lo, hi)) :
    (start ≠ .null ∧ finish ≠ .null ∧ finish.sub start = .ok lo ∧ lo = hi) ∨
      n.durationPair spec.duration = .ok (lo, hi) := by
  unfold specDuration at h
  split at h
  · cases h
  · cases h
  · next hs hf =>
    obtain ⟨d, hd, h⟩ := (bind_eq_ok_iff _ _ _).mp h
    cases h
    exact .inl ⟨hs, hf, hd, rfl⟩
  · exact .inr h

/-! ## Single changes -/

/-- The changes of a network that writes are made of. -/
inductive Change (n : Network) : Network → Prop
  | point (p : String) : Change n (n.addPoint p)
  | bound (a b : String) (bound : Bound) (integral : bound.Integral)
      (order : bound.crossed = false) : Change n (n.addBound a b bound)
  | metadata (id : String) (data : Metadata) : Change n (n.withMetadata id data)
  | erase (m : Network) (a b : String)
      (h : recheck { n with
        constraints := (n.constraints.erase samePair (a, b)).erase samePair (b, a) } = .ok m) :
      Change n m
  | propagate (m : Network) (h : n.propagate = .ok m) : Change n m
  | rescale (m : Network) (factor : Rat) (cs : Constraints) (unit : TimeUnit) (detail : Detail)
      (scaled : scaleAll factor n.constraints = .ok cs)
      (h : recheck { n with constraints := cs, unit, detail } = .ok m) : Change n m

abbrev Changes : Network → Network → Prop := Relation.ReflTransGen Change

/-- The changes that take nothing away: writing points, bounds and intervals is made of them. -/
inductive Addition (n : Network) : Network → Prop
  | point (p : String) : Addition n (n.addPoint p)
  | bound (a b : String) (bound : Bound) (integral : bound.Integral)
      (order : bound.crossed = false) : Addition n (n.addBound a b bound)
  | metadata (id : String) (data : Metadata) : Addition n (n.withMetadata id data)

abbrev Additions : Network → Network → Prop := Relation.ReflTransGen Addition

theorem Addition.change (h : Addition n m) : Change n m := by
  cases h with
  | point p => exact .point p
  | bound a b bound integral order => exact .bound a b bound integral order
  | metadata id data => exact .metadata id data

theorem Additions.changes (h : Additions n m) : Changes n m :=
  Relation.ReflTransGen.mono (fun _ _ step => step.change) n m h

theorem erase_wellFormed (w : n.WellFormed) (a b : String) : WellFormed { n with
    constraints := (n.constraints.erase samePair (a, b)).erase samePair (b, a) } :=
  w.mono (fun _ hp => hp) fun _ he =>
    (erase_sublist _ _ _).subset ((erase_sublist _ _ _).subset he)

theorem Change.wellFormed (w : n.WellFormed) (h : Change n m) : m.WellFormed := by
  cases h with
  | point p => exact addPoint_wellFormed w p
  | bound a b bound integral => exact addBound_wellFormed w a b bound integral
  | metadata id data => exact withMetadata_wellFormed w id data
  | erase m a b h => exact recheck_wellFormed (erase_wellFormed w a b) h
  | propagate m h => exact propagate_wellFormed w h
  | rescale m factor cs unit detail scaled h =>
    exact recheck_wellFormed (n := { n with constraints := cs, unit, detail })
      (scaleAll_fits w factor cs scaled) h

theorem addConstraint_addition (a b : String) (lo hi : Value) (hlo : lo.Integral)
    (hhi : hi.Integral) (h : n.addConstraint a b lo hi = .ok m) : Addition n m := by
  obtain ⟨bound, hb, hm⟩ := (bind_eq_ok_iff _ _ _).mp h
  cases hm
  exact .bound a b bound (ofValues_integral lo hi bound hlo hhi hb)
    (ofValues_uncrossed lo hi bound hlo hhi hb)

theorem addConstraints_additions (entries : List (String × String × Value × Value))
    (he : ∀ e ∈ entries, e.2.2.1.Integral ∧ e.2.2.2.Integral)
    (h : n.addConstraints entries = .ok m) : Additions n m :=
  foldlM_preserves (Additions n) _ entries n m
    (fun _ e hmem _ before h =>
      before.tail (addConstraint_addition _ _ _ _ (he e hmem).1 (he e hmem).2 h)) .refl h

theorem remove_changes (a b : String) (h : n.remove a b = .ok m) : Changes n m := by
  unfold remove at h
  split at h
  · exact .single (.erase m a b h)
  · cases h
    exact .refl

theorem setDetail_changes (level : Detail) (h : n.setDetail level = .ok m) : Changes n m := by
  unfold setDetail at h
  split at h
  · cases h
    exact .refl
  · obtain ⟨cs, hcs, h⟩ := (bind_eq_ok_iff _ _ _).mp h
    exact .single (.rescale m _ cs n.unit level hcs h)

theorem setUnit_changes (unit : TimeUnit) (h : n.setUnit unit = .ok m) : Changes n m := by
  unfold setUnit at h
  split at h
  · cases h
    exact .refl
  · obtain ⟨cs, hcs, h⟩ := (bind_eq_ok_iff _ _ _).mp h
    exact .single (.rescale m _ cs unit n.detail hcs h)

theorem anchor_additions (p : String) (v : Value) (hv : v.Integral) (h : n.anchor p v = .ok m) :
    Additions n m := by
  unfold anchor at h
  split at h
  · cases h
    exact .refl
  · exact .single (addConstraint_addition _ _ _ _ hv hv h)

theorem addInterval_additions (spec : IntervalSpec) (hs : spec.Integral)
    (h : n.addInterval spec = .ok m) : Additions n m := by
  obtain ⟨start, hstart, h⟩ := (bind_eq_ok_iff _ _ _).mp h
  obtain ⟨finish, hfinish, h⟩ := (bind_eq_ok_iff _ _ _).mp h
  obtain ⟨⟨lo, hi⟩, hdur, h⟩ := (bind_eq_ok_iff _ _ _).mp h
  obtain ⟨n₁, h₁, h⟩ := (bind_eq_ok_iff _ _ _).mp h
  obtain ⟨n₂, h₂, h⟩ := (bind_eq_ok_iff _ _ _).mp h
  obtain ⟨n₃, h₃, h⟩ := (bind_eq_ok_iff _ _ _).mp h
  have start_integral := ticksOf_integral _ _ hs.start hstart
  have finish_integral := ticksOf_integral _ _ hs.finish hfinish
  have duration_integral : lo.Integral ∧ hi.Integral := by
    rcases specDuration_cases spec start finish lo hi hdur with ⟨ns, nf, hsub, rfl⟩ | hpair
    · -- the anchors accept only integers, and those have an integer difference
      obtain ⟨a, rfl⟩ := anchor_int _ _ start_integral ns h₂
      obtain ⟨b, rfl⟩ := anchor_int _ _ finish_integral nf h₃
      cases hsub
      exact ⟨.ofInt _, .ofInt _⟩
    · exact durationPair_integral _ _ _ hs.duration hs.parts hpair
  have points : Additions n ((n.addPoint (startPoint spec.id)).addPoint (endPoint spec.id)) :=
    .tail (.single (.point _)) (.point _)
  have anchored : Additions n n₃ :=
    ((points.tail (addConstraint_addition _ _ _ _ duration_integral.1 duration_integral.2 h₁)).trans
      (anchor_additions _ _ start_integral h₂)).trans (anchor_additions _ _ finish_integral h₃)
  unfold described at h
  split at h
  · obtain ⟨data, -, h⟩ := (bind_eq_ok_iff _ _ _).mp h
    cases h
    exact anchored.tail (.metadata _ _)
  · cases h
    exact anchored

/-! ## All writes -/

/-- A write of a network, with what is written. -/
inductive Write
  | point (p : String)
  | bound (a b : String) (lo hi : Value)
  | bounds (entries : List (String × String × Value × Value))
  | interval (spec : IntervalSpec)
  | remove (a b : String)
  | metadata (id : String) (data : Metadata)
  | propagate
  | detail (level : Detail)
  | unit (u : TimeUnit)

namespace Write

/-- The network after a write, unless the write is refused. -/
def apply : Write → Network → Except Fault Network
  | .point p, n => .ok (n.addPoint p)
  | .bound a b lo hi, n => n.addConstraint a b lo hi
  | .bounds entries, n => n.addConstraints entries
  | .interval spec, n => n.addInterval spec
  | .remove a b, n => n.remove a b
  | .metadata id data, n => .ok (n.withMetadata id data)
  | .propagate, n => n.propagate
  | .detail level, n => n.setDetail level
  | .unit u, n => n.setUnit u

/-- All numbers that are written are integers or infinite. -/
def Integral : Write → Prop
  | .bound _ _ lo hi => lo.Integral ∧ hi.Integral
  | .bounds entries => ∀ e ∈ entries, e.2.2.1.Integral ∧ e.2.2.2.Integral
  | .interval spec => spec.Integral
  | _ => True

theorem apply_changes (a : Write) (ha : a.Integral) (h : a.apply n = .ok m) : Changes n m := by
  cases a with
  | point p =>
    cases h
    exact .single (.point p)
  | bound a b lo hi => exact .single (addConstraint_addition a b lo hi ha.1 ha.2 h).change
  | bounds entries => exact (addConstraints_additions entries ha h).changes
  | interval spec => exact (addInterval_additions spec ha h).changes
  | remove a b => exact remove_changes a b h
  | metadata id data =>
    cases h
    exact .single (.metadata id data)
  | propagate => exact .single (.propagate m h)
  | detail level => exact setDetail_changes level h
  | unit u => exact setUnit_changes u h

end Write

/-- What accepted writes of integers and infinite numbers make of an empty network. -/
inductive Reachable : Network → Prop
  | empty (unit : TimeUnit) (detail : Detail) (parallel : Bool) (workers : Int) :
    Reachable (.empty unit detail parallel workers)
  | write (n m : Network) (a : Write) :
    Reachable n → a.Integral → a.apply n = .ok m → Reachable m

/-- What holds of empty networks and is kept by every change of a well-formed one holds of all
reachable networks. -/
theorem Reachable.invariant (P : Network → Prop)
    (empty : ∀ unit detail parallel workers, P (.empty unit detail parallel workers))
    (change : ∀ n m, n.WellFormed → P n → Change n m → P m) (n : Network) (h : n.Reachable) :
    n.WellFormed ∧ P n := by
  induction h with
  | empty unit detail parallel workers =>
    exact ⟨wellFormed_empty unit detail parallel workers, empty unit detail parallel workers⟩
  | write n m a _ ha h ih =>
    have changes := a.apply_changes ha h
    clear h
    induction changes with
    | refl => exact ih
    | tail _ step before => exact ⟨step.wellFormed before.1, change _ _ before.1 before.2 step⟩

theorem Reachable.wellFormed (n : Network) (h : n.Reachable) : n.WellFormed :=
  (h.invariant (fun _ => True) (fun _ _ _ _ => trivial) fun _ _ _ _ _ => trivial).1

end Network
end Chronoplan
