import Chronoplan.Proofs.Network.Batches
import Chronoplan.Proofs.Network.Refining
import Chronoplan.Proofs.Network.RoundTrips

/-!
# Distances that double

Where the first point can come neither before nor after the others, the pass through it leaves
negative distances between all of them, and every later pass doubles these. So in a network in
conflict moderate bounds do not keep the distances moderate: with enough points a distance becomes
too large to be added to an infinite number, and a point without constraints has it added to one.
-/

set_option autoImplicit false

namespace Chronoplan

namespace Distances

/-- The first point is kept from each of the others below `n` in both directions. -/
def Torn (n : ℕ) (size : ℕ) (D : Distances) : Prop :=
  ∀ i, 0 < i → i < n → D 0 i ≤ ((-size : ℤ) : WithTop ℤ) ∧ D i 0 ≤ ((-size : ℤ) : WithTop ℤ)

variable {n size : ℕ} {D : Distances}

theorem add_le_neg_double {a b : WithTop ℤ} {m : ℤ} (ha : a ≤ ((-m : ℤ) : WithTop ℤ))
    (hb : b ≤ ((-m : ℤ) : WithTop ℤ)) : a + b ≤ ((-(2 * m) : ℤ) : WithTop ℤ) := by
  refine (add_le_add ha hb).trans ?_
  rw [← WithTop.coe_add, WithTop.coe_le_coe]
  omega

/-- After the first pass the distances between the points that are still to be passed are at most
the negated size, doubled once for every pass. -/
theorem stage_doubles (torn : D.Torn n size) (k : ℕ) (first : 0 < k) (i j : ℕ)
    (hi : k ≤ i ∧ i < n) (hj : k ≤ j ∧ j < n) :
    D.stage k i j ≤ ((-(2 ^ k * size) : ℤ) : WithTop ℤ) := by
  induction k, first using Nat.le_induction generalizing i j with
  | base =>
    rw [pow_one]
    exact (pass_le_add D 0 i j).trans
      (add_le_neg_double (torn i hi.1 hi.2).2 (torn j hj.1 hj.2).1)
  | succ k _ ih =>
    rw [pow_succ', mul_assoc]
    exact (pass_le_add (D.stage k) k i j).trans
      (add_le_neg_double (ih i k (by omega) (by omega)) (ih k j (by omega) (by omega)))

/-- What nothing leads to at first nothing leads to later on. -/
theorem stage_isolated (far : ∀ i, i ≠ n → D i n = ⊤) (k i : ℕ) (apart : i ≠ n) :
    D.stage k i n = ⊤ := by
  induction k generalizing i with
  | zero => exact far i apart
  | succ k ih =>
    have detour : D.stage k i k + D.stage k k n = ⊤ := by
      by_cases here : k = n
      · rw [here] at ih ⊢
        rw [ih i apart, top_add]
      · rw [ih k here, add_top]
    rw [stage, pass, ih i apart, detour, min_self]

/-- The last of the doubled distances. -/
theorem stage_torn (torn : D.Torn n size) (within : D.Within size) (k : ℕ) (first : 0 < k)
    (last : k < n) : D.stage k k k = ((-(2 ^ k * size) : ℤ) : WithTop ℤ) := by
  have low := stage_doubles torn k first k k ⟨le_rfl, last⟩ ⟨le_rfl, last⟩
  obtain ⟨m, hm, low⟩ := WithTop.le_coe_iff.mp low
  have near := within_stage size D within k k k m hm
  rw [hm, WithTop.coe_inj]
  have cast : ((2 ^ k * size : ℕ) : ℤ) = 2 ^ k * size := by push_cast; rfl
  omega

end Distances

/-- The distances of the tightest bound are at most those of every other. -/
theorem Bound.Tightest.distances_le {b x : Bound} {bs : List Bound} (h : b.Tightest bs)
    (hb : b.Integral) (hx : x.Integral) (mem : x ∈ bs) :
    b.hi.toDistance ≤ x.hi.toDistance ∧ b.lo.neg.toDistance ≤ x.lo.neg.toDistance := by
  obtain ⟨back, forth, rfl⟩ := hb
  obtain ⟨back', forth', rfl⟩ := hx
  have upper := h.smallest _ mem
  have lower := h.largest _ mem
  simp only [Bound.ofDistances, Number.lt_ofDistance, lt_neg_neg, decide_eq_false_iff_not,
    not_lt] at upper lower
  simpa [Bound.ofDistances] using ⟨upper, lower⟩

namespace Network

variable {n : Network}

theorem Sorted.placeIn_first (h : n.Sorted) (p : String) (hp : p ∈ n.points)
    (least : ∀ q ∈ n.points, p ≤ q) : placeIn n.points p = 0 := by
  obtain ⟨hi, found⟩ := List.getElem?_eq_some_iff.mp (place?_of_mem n.points p hp).2
  by_contra later
  have before := List.pairwise_iff_getElem.mp h 0 _ (by omega) hi (Nat.pos_of_ne_zero later)
  rw [found] at before
  exact absurd before (least _ (List.getElem_mem _)).not_gt

theorem Sorted.placeIn_last (h : n.Sorted) (p : String) (hp : p ∈ n.points)
    (greatest : ∀ q ∈ n.points, q ≤ p) : placeIn n.points p + 1 = n.size := by
  obtain ⟨hi, found⟩ := List.getElem?_eq_some_iff.mp (place?_of_mem n.points p hp).2
  by_contra earlier
  have inside : placeIn n.points p + 1 < n.points.length := by
    unfold size at earlier
    omega
  have after := List.pairwise_iff_getElem.mp h _ _ hi inside (Nat.lt_succ_self _)
  rw [found] at after
  exact absurd after (greatest _ (List.getElem_mem _)).not_gt

end Network

/-! ## Too many buoys

The alarm is to come a good while after each of the buoys, and each of them a good while after the
alarm. Nothing is asked of the calm. -/

namespace Regatta

def later : Bound := ⟨.int (10 ^ 20), .posInf⟩

def buoy (i : ℕ) : String := "buoy" ++ i.repr

def wishes (i : ℕ) : List Constraint := [⟨"alarm", buoy i, later⟩, ⟨buoy i, "alarm", later⟩]

def start : Network := ((Network.empty .day .medium false 4).addPoint "alarm").addPoint "calm"

/-- The network of a number of buoys, in days. -/
def network (k : ℕ) : Network := start.addAll ((List.range k).flatMap wishes)

theorem later_usable : later.Usable :=
  ⟨⟨((-10 ^ 20 : ℤ) : WithTop ℤ), ⊤, rfl⟩, rfl, by decide +kernel⟩

theorem mem_wishes_iff (k : ℕ) (e : Constraint) : e ∈ (List.range k).flatMap wishes ↔
    ∃ i < k, e = ⟨"alarm", buoy i, later⟩ ∨ e = ⟨buoy i, "alarm", later⟩ := by
  simp [wishes]

theorem network_reachable (k : ℕ) : (network k).Reachable := by
  have wished : ∀ e ∈ (List.range k).flatMap wishes, e.bound = later := by
    intro e he
    obtain ⟨i, -, rfl | rfl⟩ := (mem_wishes_iff k e).mp he <;> rfl
  have empty : (Network.empty .day .medium false 4).Reachable := .empty _ _ _ _
  have begun : start.Reachable :=
    .write _ _ (.point "calm") (.write _ _ (.point "alarm") empty trivial rfl) trivial rfl
  refine .write start _ (.bounds (((List.range k).flatMap wishes).map Constraint.request)) begun
    ?_ (start.addConstraints_requests _ fun e he => (wished e he).symm ▸ later_usable)
  intro x hx
  obtain ⟨e, he, rfl⟩ := List.mem_map.mp hx
  have integral := (wished e he).symm ▸ later_usable.integral
  exact ⟨fun x hx => Value.num.inj hx ▸ integral.lo_integral,
    fun x hx => Value.num.inj hx ▸ integral.hi_integral⟩

theorem mem_points_iff (k : ℕ) (p : String) :
    p ∈ (network k).points ↔ p = "alarm" ∨ p = "calm" ∨ ∃ i < k, p = buoy i := by
  have begun : p ∈ start.points ↔ p = "alarm" ∨ p = "calm" := by
    simp [start, Network.addPoint, Network.empty, mem_insertPoint, or_comm]
  rw [network, Network.mem_points_addAll, begun]
  simp only [mem_wishes_iff]
  constructor
  · rintro ((rfl | rfl) | ⟨e, ⟨i, hi, rfl | rfl⟩, rfl | rfl⟩)
    · exact .inl rfl
    · exact .inr (.inl rfl)
    · exact .inl rfl
    · exact .inr (.inr ⟨i, hi, rfl⟩)
    · exact .inr (.inr ⟨i, hi, rfl⟩)
    · exact .inl rfl
  · rintro (rfl | rfl | ⟨i, hi, rfl⟩)
    · exact .inl (.inl rfl)
    · exact .inl (.inr rfl)
    · exact .inr ⟨_, ⟨i, hi, .inl rfl⟩, .inr rfl⟩

theorem alarm_lt_buoy (i : ℕ) : "alarm" < buoy i := by
  rw [buoy, String.lt_iff_toList_lt, String.toList_append]
  exact List.Lex.rel (by decide)

theorem buoy_lt_calm (i : ℕ) : buoy i < "calm" := by
  rw [buoy, String.lt_iff_toList_lt, String.toList_append]
  exact List.Lex.rel (by decide)

theorem buoy_injective : Function.Injective buoy := fun _ _ h =>
  Nat.repr_inj.mp ((String.append_right_inj _).mp h)

theorem network_size (k : ℕ) : (network k).size = k + 2 := by
  have once : (network k).points.Nodup := (network_reachable k).sorted.imp fun less => less.ne
  have buoys : ((List.range k).map buoy).Nodup := List.nodup_range.map buoy_injective
  have named : ("alarm" :: "calm" :: (List.range k).map buoy).Nodup := by
    refine List.nodup_cons.mpr ⟨?_, List.nodup_cons.mpr ⟨?_, buoys⟩⟩
    · simp [(alarm_lt_buoy _).ne']
    · simp [(buoy_lt_calm _).ne]
  have perm : (network k).points.Perm ("alarm" :: "calm" :: (List.range k).map buoy) := by
    refine (List.perm_ext_iff_of_nodup once named).mpr fun p => ?_
    rw [mem_points_iff]
    simp [eq_comm]
  rw [Network.size, perm.length_eq]
  simp

theorem alarm_place (k : ℕ) : placeIn (network k).points "alarm" = 0 := by
  refine (network_reachable k).sorted.placeIn_first _ ((mem_points_iff k _).mpr (.inl rfl)) ?_
  intro q hq
  obtain rfl | rfl | ⟨i, -, rfl⟩ := (mem_points_iff k q).mp hq
  · exact le_rfl
  · decide
  · exact (alarm_lt_buoy i).le

theorem calm_place (k : ℕ) : placeIn (network k).points "calm" = k + 1 := by
  have last := (network_reachable k).sorted.placeIn_last "calm"
    ((mem_points_iff k _).mpr (.inr (.inl rfl))) fun q hq => by
      obtain rfl | rfl | ⟨i, -, rfl⟩ := (mem_points_iff k q).mp hq
      · decide
      · exact le_rfl
      · exact (buoy_lt_calm i).le
  rw [network_size] at last
  omega

/-- Between the alarm and the calm a buoy stands at every place. -/
theorem exists_buoy (k i : ℕ) (after : 0 < i) (before : i < k + 1) :
    ∃ j < k, placeIn (network k).points (buoy j) = i := by
  have inside : i < (network k).points.length := by
    have size : (network k).points.length = k + 2 := network_size k
    omega
  have here := (network_reachable k).sorted.placeIn_getElem i inside
  obtain same | same | ⟨j, hj, same⟩ :=
    (mem_points_iff k _).mp (List.getElem_mem inside)
  · rw [same, alarm_place] at here
    omega
  · rw [same, calm_place] at here
    omega
  · exact ⟨j, hj, same ▸ here⟩

/-! ### Its distances -/

theorem mem_readings_iff (k : ℕ) (u v : String) (b : Bound) :
    b ∈ readings ((List.range k).flatMap wishes) u v ↔
      ∃ i < k, (("alarm", buoy i) = (u, v) ∨ (buoy i, "alarm") = (u, v)) ∧
        (b = later ∨ b = later.negate) := by
  rw [readings, List.mem_flatMap]
  simp only [mem_wishes_iff]
  constructor
  · rintro ⟨e, ⟨i, hi, rfl | rfl⟩, hb⟩ <;>
      rcases List.mem_append.mp hb with hb | hb <;> split_ifs at hb with here <;>
      simp only [List.mem_singleton, List.not_mem_nil] at hb <;>
      exact ⟨i, hi, by tauto, by tauto⟩
  · rintro ⟨i, hi, here | here, rfl | rfl⟩
    · exact ⟨_, ⟨i, hi, .inl rfl⟩, List.mem_append.mpr (.inl (by simp [here]))⟩
    · exact ⟨_, ⟨i, hi, .inr rfl⟩, List.mem_append.mpr (.inr (by simp [here]))⟩
    · exact ⟨_, ⟨i, hi, .inr rfl⟩, List.mem_append.mpr (.inl (by simp [here]))⟩
    · exact ⟨_, ⟨i, hi, .inl rfl⟩, List.mem_append.mpr (.inr (by simp [here]))⟩

/-- What is stored is on an alarm and a buoy, and is the tightest of both wishes. -/
theorem mem_constraints (k : ℕ) (u v : String) (b : Bound)
    (hb : ((u, v), b) ∈ (network k).constraints) :
    ∃ i < k, (("alarm", buoy i) = (u, v) ∨ (buoy i, "alarm") = (u, v)) ∧
      b.Tightest (readings ((List.range k).flatMap wishes) u v) := by
  have stored : (network k).get? u v = some b :=
    (find?_eq_some_iff_of_nodup _ (network_reachable k).listed.once (u, v) b).mpr hb
  have met := start.get?_addAll ((List.range k).flatMap wishes) u v
  have tight := metAll_tightest none _ b (met.symm.trans stored)
  obtain ⟨x, hx, -⟩ := tight.lower
  obtain ⟨i, hi, here, -⟩ := (mem_readings_iff k u v x).mp hx
  exact ⟨i, hi, here, tight⟩

theorem network_moderate (k : ℕ) : ∀ e ∈ (network k).constraints, e.2.Within (10 ^ 20) := by
  rintro ⟨⟨u, v⟩, b⟩ he
  obtain ⟨-, -, -, tight⟩ := mem_constraints k u v b he
  have moderate : ∀ x ∈ readings ((List.range k).flatMap wishes) u v, x.Within (10 ^ 20) := by
    intro x hx
    obtain ⟨-, -, -, rfl | rfl⟩ := (mem_readings_iff k u v x).mp hx <;>
      rintro m (hm | hm) <;> cases hm <;> decide
  rintro m (hm | hm)
  · obtain ⟨x, hx, same⟩ := tight.lower
    exact moderate x hx m (.inl (same.trans hm))
  · obtain ⟨x, hx, same⟩ := tight.upper
    exact moderate x hx m (.inr (same.trans hm))

theorem network_torn (k : ℕ) : (network k).distances.Torn (k + 1) (10 ^ 20) := by
  intro i after before
  obtain ⟨j, hj, place⟩ := exists_buoy k i after before
  have alarm := (mem_points_iff k _).mpr (.inl rfl)
  have buoy' := (mem_points_iff k _).mpr (.inr (.inr ⟨j, hj, rfl⟩))
  have wished := fun b h => (mem_readings_iff k "alarm" (buoy j) b).mpr ⟨j, hj, .inl rfl, h⟩
  -- Both wishes are among the readings, so something is stored.
  obtain ⟨b, hb⟩ : ∃ b, (network k).get? "alarm" (buoy j) = some b := by
    rw [network, Network.get?_addAll]
    refine Option.ne_none_iff_exists'.mp fun none => ?_
    obtain ⟨-, empty⟩ := (metAll_eq_none_iff _ _).mp none
    exact absurd (wished later (.inl rfl)) (by simp [empty])
  have mem := mem_of_find? ("alarm", buoy j) b (network k).constraints hb
  obtain ⟨-, -, -, tight⟩ := mem_constraints k _ _ b mem
  have integral := ((network_reachable k).wellFormed _ _ mem).integral
  have forth := (tight.distances_le integral (later_usable.integral.negate later)
    (wished _ (.inr rfl))).1
  have back := (tight.distances_le integral later_usable.integral (wished _ (.inl rfl))).2
  have here := place?_of_mem (network k).points
  have entered := Distances.ofConstraints_le (network k).points (network k).constraints _ mem 0 i
    ((here _ alarm).1.trans (congrArg some (alarm_place k)))
    ((here _ buoy').1.trans (congrArg some place))
  exact ⟨entered.1.trans forth, entered.2.trans back⟩

theorem network_isolated (k i : ℕ) (apart : i ≠ k + 1) :
    (network k).distances i (k + 1) = ⊤ := by
  by_contra limited
  obtain ⟨m, hm⟩ := WithTop.ne_top_iff_exists.mp limited
  have calm : ∀ p, Matrix.place? (network k).points p = some (k + 1) → p = "calm" := by
    intro p hp
    have mem := mem_of_place? _ p _ hp
    obtain ⟨here, found⟩ := place?_of_mem _ p mem
    obtain ⟨-, found'⟩ := place?_of_mem _ "calm" ((mem_points_iff k _).mpr (.inr (.inl rfl)))
    rw [Option.some.inj (here.symm.trans hp), ← calm_place k, found'] at found
    exact (Option.some.inj found).symm
  obtain begun | ⟨⟨⟨u, v⟩, b⟩, he, asked⟩ :=
    Distances.ofConstraints_attained (network k).points (network k).constraints i (k + 1) m hm.symm
  · rw [Distances.start, if_neg apart] at begun
    cases begun
  · obtain ⟨j, -, pair, -⟩ := mem_constraints k u v b he
    have ends : u = "calm" ∨ v = "calm" := by
      obtain ⟨-, there, -⟩ | ⟨-, there, -⟩ := asked
      · exact .inr (calm v there)
      · exact .inl (calm u there)
    have other := (buoy_lt_calm j).ne
    rcases pair with pair | pair <;> cases pair <;> rcases ends with ends | ends
    · exact absurd ends (by decide)
    · exact other ends
    · exact other ends
    · exact absurd ends (by decide)

theorem network_unit (k : ℕ) : (network k).unit = .day := by
  rw [network, Network.addAll_rest]
  rfl

/-- What the check adds to an infinite number before it passes the last buoy is too large in
microseconds. -/
theorem not_addable (k : ℕ) (positive : 0 < k)
    (large : ¬ Addable (shortTicks 86400000000 (-(2 ^ k * (10 ^ 20 : ℕ))))) :
    ¬ ((network k).short 86400000000).Addable := by
  intro addable
  have w := (network_reachable k).wellFormed
  have w' : ((network k).short 86400000000).WellFormed := Network.short_fits w _
  have size : ((network k).short 86400000000).size = k + 2 := network_size k
  have pass := (Network.addable_iff _ w').mp addable k (by omega)
  rw [Network.distances_short w, Distances.stage_short, size] at pass
  have within := Distances.within_ofConstraints (10 ^ 20) (network k).points
    (network k).constraints (fun e he => (w e he).integral) (network_moderate k)
  have last := Distances.stage_torn (network_torn k) within k positive (Nat.lt_succ_self k)
  have far := Distances.stage_isolated (network_isolated k) k k (by omega)
  refine large (pass k (by omega) _ ?_ (k + 1) (by omega) ?_)
  · rw [Distances.short, last, WithTop.map_coe]
  · rw [Distances.short, far, WithTop.map_top]

theorem not_in_microseconds (k : ℕ) (positive : 0 < k)
    (large : ¬ Addable (shortTicks 86400000000 (-(2 ^ k * (10 ^ 20 : ℕ))))) :
    (network k).setUnit .microsecond = .error .tooLarge := by
  have finer : (Scale.unit .microsecond).length <
      ((Scale.unit .microsecond).current (network k)).length := by
    rw [Scale.current, network_unit]
    decide
  have ratio : (Scale.unit .microsecond).ratio ((Scale.unit .microsecond).current (network k)) =
      86400000000 := by
    rw [Scale.current, network_unit]
    rfl
  obtain ⟨returns, faults, -⟩ :=
    (network k).set_finer (network_reachable k) (.unit .microsecond) finer
  rw [ratio] at returns
  cases h : (network k).setUnit .microsecond with
  | error e => rw [faults e h]
  | ok m => exact absurd (returns.mp ⟨m, h⟩).2 (not_addable k positive large)

/-- With 922 buoys the bounds, none larger than 10 ^ 20 days, cannot be set in microseconds. -/
theorem too_many :
    (network 922).Reachable ∧ (∀ e ∈ (network 922).constraints, e.2.Within (10 ^ 20)) ∧
      (network 922).size = 924 ∧ (network 922).unit = .day ∧
      (network 922).setUnit .microsecond = .error .tooLarge :=
  ⟨network_reachable 922, network_moderate 922, network_size 922, network_unit 922,
    not_in_microseconds 922 (by decide) (by decide +kernel)⟩

end Regatta

end Chronoplan
