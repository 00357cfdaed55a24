import Chronoplan.Proofs.Network.Meets

/-!
# Bounds both ways

A bound on the time from one point to another is stored together with the bound on the time back,
each the negation of the other. Every change of a network treats the two alike: a further bound
narrows both, removal takes both, the closure is read both ways, and rounding to ticks is the same
on both signs. So a reachable network is its own mirror image, and its bounds on the time from a
point to itself are symmetric about zero.
-/

set_option autoImplicit false

namespace Chronoplan

/-! ### Equal numbers of opposite sign -/

namespace Place

def neg : Place → Place
  | .bot => .top
  | .line q => .line (-q)
  | .top => .bot

@[simp] theorem neg_neg (p : Place) : p.neg.neg = p := by
  cases p <;> simp [neg]

end Place

namespace Number

theorem place?_neg (x : Number) : x.neg.place? = x.place?.map Place.neg := by
  cases x with
  | bool b => cases b <;> simp [neg, place?, Place.neg]
  | int n => simp [neg, place?, Place.neg]
  | ratio q => rfl
  | float y =>
    cases y with
    | finite q =>
      by_cases hq : q = 0
      · simp [neg, Binary64.neg, place?, Place.neg, hq]
      · simp [neg, Binary64.neg, place?, Place.neg, hq]
    | _ => simp [neg, Binary64.neg, place?, Place.neg]

theorem eq_iff_place? (x y : Number) :
    x.eq y = true ↔ ∃ p, x.place? = some p ∧ y.place? = some p := by
  unfold eq
  split
  · simp [place?, eq_comm]
  · cases x.place? with
    | none => simp
    | some p =>
      cases y.place? with
      | none => simp
      | some q => simp [eq_comm]

theorem neg_eq_neg (x y : Number) : x.neg.eq y.neg = true ↔ x.eq y = true := by
  rw [eq_iff_place?, eq_iff_place?, place?_neg, place?_neg]
  constructor
  · rintro ⟨p, hx, hy⟩
    obtain ⟨q, hq, rfl⟩ := Option.map_eq_some_iff.mp hx
    obtain ⟨q', hq', same⟩ := Option.map_eq_some_iff.mp hy
    have equal : q' = q := by rw [← q'.neg_neg, same, q.neg_neg]
    exact ⟨q, hq, equal ▸ hq'⟩
  · rintro ⟨p, hx, hy⟩
    exact ⟨p.neg, by rw [hx, Option.map_some], by rw [hy, Option.map_some]⟩

theorem neg_eq_iff (x y : Number) : x.neg.eq y = true ↔ x.eq y.neg = true := by
  rw [← neg_eq_neg x y.neg, eq_iff_place?, eq_iff_place?, place?_neg y.neg, place?_neg y,
    Option.map_map]
  have twice : Place.neg ∘ Place.neg = id := by
    funext p
    exact p.neg_neg
  rw [twice, Option.map_id, id]

theorem eq_neg_neg (x y : Number) : x.eq y.neg.neg = true ↔ x.eq y = true := by
  rw [← neg_eq_iff, neg_eq_neg]

end Number

/-! ### Negation of bounds -/

namespace Bound

theorem negate_negate (b : Bound) (h : b.Integral) : b.negate.negate = b := by
  obtain ⟨back, forth, rfl⟩ := h
  simp

theorem negate_meet (a b : Bound) (ha : a.Integral) (hb : b.Integral) :
    (a.meet b).negate = a.negate.meet b.negate := by
  obtain ⟨x, y, rfl⟩ := ha
  obtain ⟨x', y', rfl⟩ := hb
  simp

end Bound

/-! ### Scaling -/

theorem scaleBound_neg (a : WithTop ℤ) (factor : Rat) (x y : Number)
    (hx : scaleBound (Number.ofDistance a) factor = .ok x)
    (hy : scaleBound (Number.ofDistance a).neg factor = .ok y) : y = x.neg := by
  cases a using WithTop.recTopCoe with
  | top =>
    cases hx
    cases hy
    rfl
  | coe m =>
    obtain ⟨k, hk, rfl⟩ := scaleBound_int m factor x hx
    obtain ⟨l, hl, rfl⟩ := scaleBound_int (-m) factor y hy
    have opposite := roundTicks_neg _ k hk
    rw [← neg_mul, ← Int.cast_neg, hl, Except.ok.injEq] at opposite
    rw [opposite, Number.neg_int]

namespace Bound

/-- Both numbers are multiplied and rounded. -/
def ScaledTo (factor : Rat) (b b' : Bound) : Prop :=
  scaleBound b.lo factor = .ok b'.lo ∧ scaleBound b.hi factor = .ok b'.hi

theorem ScaledTo.negate (factor : Rat) (b b' back : Bound) (h : b.Integral)
    (hb : b.ScaledTo factor b') (hback : b.negate.ScaledTo factor back) : back = b'.negate := by
  obtain ⟨x, y, rfl⟩ := h
  rw [negate_ofDistances] at hback
  have upper : back.lo = b'.hi.neg := scaleBound_neg y factor _ _ hb.2 hback.1
  have lower : b'.lo = back.hi.neg := scaleBound_neg x factor _ _ hback.2 hb.1
  obtain ⟨c, hc⟩ := scaleBound_ofDistance x factor _ hback.2
  have twice : back.hi = b'.lo.neg := by rw [lower, hc, Number.neg_neg_ofDistance]
  rw [Bound.negate, ← upper, ← twice]

end Bound

/-! ### Look-ups -/

/-- Scaling keeps the keys and scales what is found under each. -/
theorem find?_scaleAll (factor : Rat) (c cs : Constraints)
    (h : Network.scaleAll factor c = .ok cs) (key : String × String) :
    (∀ b', cs.find? samePair key = some b' →
      ∃ b, c.find? samePair key = some b ∧ b.ScaledTo factor b') ∧
    ∀ b, c.find? samePair key = some b →
      ∃ b', cs.find? samePair key = some b' ∧ b.ScaledTo factor b' := by
  have entries := (mapM_eq_ok_iff _ _ _).mp h
  clear h
  induction entries with
  | nil => simp
  | cons scaled _ ih =>
    obtain ⟨lo, hlo, scaled⟩ := (bind_eq_ok_iff _ _ _).mp scaled
    obtain ⟨hi, hhi, scaled⟩ := (bind_eq_ok_iff _ _ _).mp scaled
    cases scaled
    unfold Table.find?
    split
    · constructor
      · rintro _ ⟨⟩
        exact ⟨_, rfl, hlo, hhi⟩
      · rintro _ ⟨⟩
        exact ⟨_, rfl, hlo, hhi⟩
    · exact ih

namespace Network

variable {n m : Network}

/-- What is stored one way is the negation of what is stored the other way. -/
def Mirrored (n : Network) : Prop := ∀ u v, n.get? v u = (n.get? u v).map Bound.negate

theorem mirrored_of_stored (h : ∀ u v b, n.get? u v = some b → n.get? v u = some b.negate) :
    n.Mirrored := by
  intro u v
  cases huv : n.get? u v with
  | some b => exact h u v b huv
  | none =>
    cases hvu : n.get? v u with
    | none => rfl
    | some b => simp [h v u b hvu] at huv

theorem Mirrored.congr (h : n.Mirrored) (same : m.constraints = n.constraints) : m.Mirrored := by
  intro u v
  rw [get?, get?, same]
  exact h u v

/-- A bound on the time from a point to itself narrows what is stored twice. -/
theorem get?_addBound_self (n : Network) (a c d : String) (bound : Bound) :
    (n.addBound a a bound).get? c d =
      if (a, a) = (c, d) then
        some ((((n.get? a a).map (·.meet bound)).getD bound).meet bound.negate)
      else n.get? c d := by
  simp only [get?, addBound, find?_narrow, if_true, Option.map_some, Option.getD_some]
  by_cases h : (a, a) = (c, d) <;> simp [h]

theorem met_integral (old : Option Bound) (bound : Bound)
    (hold : ∀ b, old = some b → b.Integral) (hb : bound.Integral) :
    ((old.map (·.meet bound)).getD bound).Integral := by
  cases old with
  | none => exact hb
  | some b => exact (hold b rfl).meet b bound hb

theorem met_negate (old : Option Bound) (bound : Bound)
    (hold : ∀ b, old = some b → b.Integral) (hb : bound.Integral) :
    (((old.map Bound.negate).map (·.meet bound.negate)).getD bound.negate) =
      ((old.map (·.meet bound)).getD bound).negate := by
  cases old with
  | none => rfl
  | some b => exact (b.negate_meet bound (hold b rfl) hb).symm

/-- What is stored from a point to itself after a further bound equals its negation. -/
theorem met_self (old : Option Bound) (bound : Bound) (hold : ∀ b, old = some b → b.Integral)
    (hb : bound.Integral) (symmetric : old = old.map Bound.negate) :
    (((old.map (·.meet bound)).getD bound).meet bound.negate).negate =
      ((old.map (·.meet bound)).getD bound).meet bound.negate := by
  have hn := hb.negate bound
  rw [Bound.negate_meet _ _ (met_integral old bound hold hb) hn, bound.negate_negate hb,
    ← met_negate old bound hold hb, ← symmetric]
  cases old with
  | none => exact Bound.meet_comm _ _ hn hb
  | some b => exact b.meet_right_comm _ _ hn hb

theorem addBound_mirrored (w : n.WellFormed) (h : n.Mirrored) (a b : String) (bound : Bound)
    (hb : bound.Integral) : (n.addBound a b bound).Mirrored := by
  intro u v
  by_cases hab : a = b
  · subst hab
    rw [get?_addBound_self, get?_addBound_self]
    by_cases here : (a, a) = (u, v)
    · cases here
      rw [if_pos rfl, Option.map_some,
        met_self (n.get? a a) bound (n.get?_integral w a a) hb (h a a)]
    · have there : (a, a) ≠ (v, u) := fun back => here (by cases back; rfl)
      rw [if_neg here, if_neg there]
      exact h u v
  · rw [get?_addBound n a b v u bound hab, get?_addBound n a b u v bound hab]
    have met := met_negate (n.get? a b) bound (n.get?_integral w a b) hb
    rw [← h a b] at met
    by_cases forward : (a, b) = (u, v)
    · cases forward
      simp [hab, Ne.symm hab, met]
    · by_cases reverse : (b, a) = (u, v)
      · cases reverse
        have back := (met_integral _ bound (n.get?_integral w a b) hb)
        simp [hab, met, Bound.negate_negate _ back]
      · have forward' : (a, b) ≠ (v, u) := fun e => reverse (by cases e; rfl)
        have reverse' : (b, a) ≠ (v, u) := fun e => forward (by cases e; rfl)
        rw [if_neg forward, if_neg reverse, if_neg forward', if_neg reverse']
        exact h u v

theorem get?_erased (n : Network) (a b u v : String) :
    get? { n with constraints := (n.constraints.erase samePair (a, b)).erase samePair (b, a) } u v =
      if (b, a) = (u, v) ∨ (a, b) = (u, v) then none else n.get? u v := by
  have test : ∀ x y, (samePair x y = true) = (x = y) := by simp [samePair]
  simp only [get?, Table.find?_erase _ _ _ _ samePair_symm samePair_trans, test]
  by_cases reverse : (b, a) = (u, v) <;> by_cases forward : (a, b) = (u, v) <;>
    simp [reverse, forward]

theorem erase_mirrored (h : n.Mirrored) (a b : String) : Mirrored { n with
    constraints := (n.constraints.erase samePair (a, b)).erase samePair (b, a) } := by
  intro u v
  rw [get?_erased, get?_erased]
  have swap : ((b, a) = (v, u) ∨ (a, b) = (v, u)) ↔ ((b, a) = (u, v) ∨ (a, b) = (u, v)) := by
    simp only [Prod.mk.injEq]
    tauto
  by_cases gone : (b, a) = (u, v) ∨ (a, b) = (u, v)
  · rw [if_pos gone, if_pos (swap.mpr gone), Option.map_none]
  · rw [if_neg gone, if_neg (gone ∘ swap.mp)]
    exact h u v

theorem tightest_negate (n : Network) (u v : String) :
    (n.tightest u v).negate = n.tightest v u :=
  Bound.negate_ofDistances _ _

/-- Of two points there is one derived bound. -/
theorem derivedConstraints_single (cs : Constraints) (h : derivedConstraints n.report = .ok cs) :
    ∀ e ∈ cs, ∀ e' ∈ cs, e.1 = e'.1 → e = e' := by
  have mem := mem_derivedConstraints_iff (n := n) cs h
  intro e he e' he' same
  obtain ⟨u, -, v, -, -, rfl, -⟩ := (mem e).mp he
  obtain ⟨u', -, v', -, -, rfl, -⟩ := (mem e').mp he'
  cases same
  rfl

theorem derived_mirrored (cs : Constraints) (h : derivedConstraints n.report = .ok cs) :
    Mirrored { n with constraints := cs } := by
  have mem := mem_derivedConstraints_iff (n := n) cs h
  have single := derivedConstraints_single (n := n) cs h
  apply mirrored_of_stored
  intro u v b hb
  obtain ⟨u', hu, v', hv, apart, he, finite⟩ := (mem _).mp ((find?_eq_some_iff cs single _ b).mp hb)
  cases he
  apply (find?_eq_some_iff cs single _ _).mpr
  rw [n.tightest_negate]
  exact (mem _).mpr ⟨v, hv, u, hu, apart.symm, rfl, finite.symm⟩

theorem scaled_mirrored (w : n.WellFormed) (h : n.Mirrored) (factor : Rat) (cs : Constraints)
    (unit : TimeUnit) (detail : Detail) (scaled : scaleAll factor n.constraints = .ok cs) :
    Mirrored { n with constraints := cs, unit, detail } := by
  apply mirrored_of_stored
  intro u v b' hb'
  obtain ⟨b, hb, forth⟩ := (find?_scaleAll factor _ cs scaled (u, v)).1 b' hb'
  have mirror : n.get? v u = some b.negate := by
    rw [h u v, get?, hb, Option.map_some]
  obtain ⟨back, hback, reverse⟩ := (find?_scaleAll factor _ cs scaled (v, u)).2 _ mirror
  rw [get?, hback, forth.negate factor b b' back (n.get?_integral w u v b hb) reverse]

theorem Change.mirrored (w : n.WellFormed) (h : n.Mirrored) (step : Change n m) : m.Mirrored := by
  cases step with
  | point p => exact h
  | bound a b bound integral => exact addBound_mirrored w h a b bound integral
  | metadata id data => exact h
  | erase m a b hm =>
    obtain ⟨_, -, rfl⟩ := recheck_eq_ok_iff.mp hm
    exact (erase_mirrored h a b).congr rfl
  | propagate m hm =>
    obtain ⟨-, ⟨-, cs, hcs, rfl⟩ | ⟨-, rfl⟩⟩ := (propagate_eq_ok_iff w).mp hm
    · exact derived_mirrored cs hcs
    · exact h
  | rescale m factor cs unit detail scaled hm =>
    obtain ⟨_, -, rfl⟩ := recheck_eq_ok_iff.mp hm
    exact (scaled_mirrored w h factor cs unit detail scaled).congr rfl

theorem Reachable.mirrored (n : Network) (r : n.Reachable) : n.Mirrored :=
  (r.invariant Mirrored (fun _ _ _ _ _ _ => rfl) fun _ _ w h step => step.mirrored w h).2

/-- A bound of these numbers is stored from one point to another. -/
def Stores (n : Network) (u v : String) (lo hi : Number) : Prop :=
  ∃ b, n.get? u v = some b ∧ b.lo.eq lo = true ∧ b.hi.eq hi = true

theorem Stores.negate (h : n.Mirrored) (u v : String) (lo hi : Number)
    (stored : n.Stores u v lo hi) : n.Stores v u hi.neg lo.neg := by
  obtain ⟨b, hb, hlo, hhi⟩ := stored
  exact ⟨b.negate, by rw [h u v, hb, Option.map_some], (Number.neg_eq_neg _ _).mpr hhi,
    (Number.neg_eq_neg _ _).mpr hlo⟩

end Network

/-! ## A performance

The time for all acts counts in seconds at first and then in ticks of ten. -/

namespace Performance

def acts : Network := Network.standard.addBound "curtain" "finale" ⟨.int 10, .int 25⟩

def timed : Network := acts.addBound "finale" "finale" ⟨.int (-30), .int 55⟩

def coarse : Network :=
  { timed with
    constraints := [(("curtain", "finale"), ⟨.int 1, .int 3⟩),
      (("finale", "curtain"), ⟨.int (-3), .int (-1)⟩),
      (("finale", "finale"), ⟨.int (-3), .int 3⟩)]
    detail := .low }

theorem coarse_reachable : coarse.Reachable := by
  have start : Network.standard.Reachable := .empty .second .medium false 4
  have one : acts.Reachable := .write _ _ (.bound "curtain" "finale" (.int 10) (.int 25)) start
    ⟨.ofInt 10, .ofInt 25⟩ rfl
  have two : timed.Reachable := .write _ _ (.bound "finale" "finale" (.int (-30)) (.int 55)) one
    ⟨.ofInt (-30), .ofInt 55⟩ rfl
  have scaled : Network.scaleAll (Detail.factor .medium .low) timed.constraints
      = .ok coarse.constraints :=
    toOption_eq_some_iff.mp (by decide +kernel)
  have rescaled : timed.setDetail .low = .ok coarse := by
    rw [Network.setDetail, if_neg (by decide), show timed.detail = .medium from rfl, scaled]
    rfl
  exact .write _ _ (.detail .low) two trivial rescaled

end Performance

/-! ## What is stored -/

/-- A reachable network stores a bound from one point to another exactly when it stores the
negated bound the other way. Both points belong to it, neither number is infinite on the wrong
side, and a bound from a point to itself is symmetric about zero. -/
theorem Network.stored_both_ways (n : Network) (r : n.Reachable) (u v : String) :
    (∀ lo hi, n.Stores u v lo hi ↔ n.Stores v u hi.neg lo.neg) ∧
      ∀ b, n.get? u v = some b → u ∈ n.points ∧ v ∈ n.points ∧
        b.lo ≠ .posInf ∧ b.hi ≠ .negInf ∧ (u = v → b.lo = b.hi.neg) := by
  have w := r.wellFormed
  have mirrored := r.mirrored
  constructor
  · intro lo hi
    constructor
    · exact Stores.negate mirrored u v lo hi
    · intro stored
      obtain ⟨b, hb, hlo, hhi⟩ := Stores.negate mirrored v u hi.neg lo.neg stored
      exact ⟨b, hb, (Number.eq_neg_neg _ _).mp hlo, (Number.eq_neg_neg _ _).mp hhi⟩
  · intro b hb
    have fits := w _ (mem_of_find? (u, v) b n.constraints hb)
    refine ⟨fits.first, fits.second, fits.integral.lo_ne_posInf, fits.integral.hi_ne_negInf, ?_⟩
    rintro rfl
    have same := mirrored u u
    rw [hb, Option.map_some, Option.some.injEq] at same
    exact congrArg Bound.lo same

/-- Rounded to tens, a bound and its reverse stay opposite, and a bound from a point to itself
stays symmetric. -/
theorem Performance.coarse_both_ways :
    Performance.coarse.Reachable ∧
      Performance.coarse.Stores "finale" "curtain" (.int (-3)) (.int (-1)) ∧
      Performance.coarse.get? "finale" "finale" = some ⟨.int (-3), .int 3⟩ ∧
      (Number.int (-3)) = (Number.int 3).neg := by
  have stored : Performance.coarse.Stores "curtain" "finale" (.int 1) (.int 3) :=
    ⟨⟨.int 1, .int 3⟩, rfl, rfl, rfl⟩
  have self : Performance.coarse.get? "finale" "finale" = some ⟨.int (-3), .int 3⟩ := rfl
  refine ⟨Performance.coarse_reachable, ?_, self, ?_⟩
  · exact ((Performance.coarse.stored_both_ways Performance.coarse_reachable "curtain" "finale").1
      _ _).mp stored
  · exact ((Performance.coarse.stored_both_ways Performance.coarse_reachable "finale" "finale").2
      _ self).2.2.2.2 rfl

end Chronoplan
