import Chronoplan.Proofs.Network.Mirror

/-!
# Propagation

Propagation stores the derived bounds in place of the given ones. Nothing is lost: the distances
built from the derived bounds are the shortest ones again, so the solutions are the same and a
second propagation finds nothing left to do. What is not stored does not limit anything.
-/

set_option autoImplicit false

namespace Chronoplan

/-! ### The order of points -/

theorem insertPoint_sorted (p : String) (points : List String) (h : points.Pairwise (· < ·)) :
    (insertPoint p points).Pairwise (· < ·) := by
  induction points with
  | nil => exact List.pairwise_singleton _ _
  | cons q rest ih =>
    obtain ⟨below, sorted⟩ := List.pairwise_cons.mp h
    unfold insertPoint
    split_ifs with same less
    · exact h
    · refine List.pairwise_cons.mpr ⟨?_, h⟩
      intro r hr
      rcases List.mem_cons.mp hr with rfl | hr
      · exact less
      · exact less.trans (below r hr)
    · have more : q < p := lt_of_le_of_ne (not_lt.mp less) (Ne.symm same)
      refine List.pairwise_cons.mpr ⟨?_, ih sorted⟩
      intro r hr
      rcases (mem_insertPoint p r rest).mp hr with rfl | hr
      · exact more
      · exact below r hr

namespace Network

variable {n m : Network}

/-- The points are in ascending order, each once. -/
def Sorted (n : Network) : Prop := n.points.Pairwise (· < ·)

theorem Change.sorted (w : n.WellFormed) (h : n.Sorted) (step : Change n m) : m.Sorted := by
  cases step with
  | point p => exact insertPoint_sorted p n.points h
  | bound a b bound => exact insertPoint_sorted b _ (insertPoint_sorted a n.points h)
  | metadata id data => exact h
  | erase m a b hm =>
    obtain ⟨_, -, rfl⟩ := recheck_eq_ok_iff.mp hm
    exact h
  | propagate m hm =>
    obtain ⟨-, ⟨-, cs, -, rfl⟩ | ⟨-, rfl⟩⟩ := (propagate_eq_ok_iff w).mp hm
    · exact h
    · exact h
  | rescale m factor cs unit detail scaled hm =>
    obtain ⟨_, -, rfl⟩ := recheck_eq_ok_iff.mp hm
    exact h

theorem Reachable.sorted (n : Network) (r : n.Reachable) : n.Sorted :=
  (r.invariant Sorted (fun _ _ _ _ => .nil) fun _ _ w h step => step.sorted w h).2

theorem Sorted.placeIn_getElem (h : n.Sorted) (i : ℕ) (hi : i < n.points.length) :
    placeIn n.points n.points[i] = i := by
  obtain ⟨hplace, found⟩ :=
    List.getElem?_eq_some_iff.mp (place?_of_mem n.points _ (List.getElem_mem hi)).2
  have once : n.points.Nodup := h.imp fun less => less.ne
  exact (once.getElem_inj_iff).mp found

end Network

/-! ### Distances from derived bounds -/

namespace Distances

/-- The same distances between the first `n` points. -/
def AgreeOn (n : ℕ) (D E : Distances) : Prop := ∀ i < n, ∀ j < n, D i j = E i j

theorem AgreeOn.table {n : ℕ} {D E : Distances} (h : AgreeOn n D E) : D.table n = E.table n := by
  apply List.map_congr_left
  intro i hi
  apply List.map_congr_left
  intro j hj
  rw [h i (List.mem_range.mp hi) j (List.mem_range.mp hj)]

theorem AgreeOn.stage {n : ℕ} {D E : Distances} (h : AgreeOn n D E) (k : ℕ) (hk : k ≤ n) :
    AgreeOn n (D.stage k) (E.stage k) := by
  induction k with
  | zero => exact h
  | succ k ih =>
    have before := ih (by omega)
    intro i hi j hj
    simp only [Distances.stage, pass, before i hi j hj, before i hi k hk, before k hk j hj]

/-- Passes leave closed distances as they are. -/
theorem stage_of_closed {n : ℕ} {D : Distances} (h : Closed n D) (k : ℕ) (hk : k ≤ n) :
    D.stage k = D := by
  induction k with
  | zero => rfl
  | succ k ih =>
    rw [stage, ih (by omega)]
    funext i j
    exact min_eq_left (h k hk i j)

theorem le_lower {D E : Distances} (h : ∀ a b, E a b ≤ D a b) (i j : ℕ) (x : WithTop ℤ)
    (hx : E i j ≤ x) (a b : ℕ) : E a b ≤ D.lower i j x a b := by
  unfold lower
  split_ifs with here
  · rw [here.1, here.2]
    exact le_min (h i j) hx
  · exact h a b

/-- Distances below those that constraints start with and ask for are below all that they give. -/
theorem le_ofConstraints (points : List String) (constraints : Constraints) (E : Distances)
    (hstart : ∀ i j, E i j ≤ start i j)
    (h : ∀ e ∈ constraints, ∀ i j, Matrix.place? points e.1.1 = some i →
      Matrix.place? points e.1.2 = some j →
      E i j ≤ e.2.hi.toDistance ∧ E j i ≤ e.2.lo.neg.toDistance) (i j : ℕ) :
    E i j ≤ ofConstraints points constraints i j := by
  have entered : ∀ D : Distances, (∀ i j, E i j ≤ D i j) →
      ∀ i j, E i j ≤ constraints.foldl (enter points) D i j := by
    intro D hD
    induction constraints generalizing D with
    | nil => exact hD
    | cons e rest ih =>
      obtain ⟨he, hrest⟩ := List.forall_mem_cons.mp h
      refine ih hrest _ fun a b => ?_
      unfold enter
      cases hi : Matrix.place? points e.1.1 with
      | none => exact hD a b
      | some i =>
        cases hj : Matrix.place? points e.1.2 with
        | none => exact hD a b
        | some j =>
          obtain ⟨forth, back⟩ := he i j hi hj
          exact le_lower (le_lower hD i j _ forth) j i _ back a b
  exact entered start hstart i j

end Distances

namespace Network

variable {n m : Network}

theorem closed_diagonal_le (n : Network) (i : ℕ) : n.closed i i ≤ 0 :=
  (Distances.stage_anti n.distances i i (Nat.zero_le n.size)).trans
    (Distances.ofConstraints_diagonal n.points n.constraints i)

theorem closed_diagonal (found : n.report.consistent = true) (i : ℕ) (hi : i < n.size) :
    n.closed i i = 0 :=
  le_antisymm (n.closed_diagonal_le i) (n.report_consistent.mp found i hi)

/-- The distances built from derived bounds are the shortest ones. -/
theorem ofConstraints_derived (sorted : n.Sorted) (found : n.report.consistent = true)
    (cs : Constraints) (hcs : derivedConstraints n.report = .ok cs) :
    Distances.AgreeOn n.size (Distances.ofConstraints n.points cs) n.closed := by
  have mem := mem_derivedConstraints_iff (n := n) cs hcs
  intro i hi j hj
  apply le_antisymm
  · by_cases hij : i = j
    · subst hij
      exact (Distances.ofConstraints_diagonal n.points cs i).trans
        (n.report_consistent.mp found i hi)
    · cases hd : n.closed i j using WithTop.recTopCoe with
      | top => exact le_top
      | coe d =>
        have hu := List.getElem_mem hi
        have hv := List.getElem_mem hj
        have placed_i := sorted.placeIn_getElem i hi
        have placed_j := sorted.placeIn_getElem j hj
        have apart : n.points[i] ≠ n.points[j] := by
          intro same
          rw [same, placed_j] at placed_i
          exact hij placed_i.symm
        have stored := (mem ((n.points[i], n.points[j]), n.tightest n.points[i] n.points[j])).mpr
          ⟨_, hu, _, hv, apart, rfl, .inr (by rw [placed_i, placed_j, hd]; simp)⟩
        have upper := (Distances.ofConstraints_le n.points cs _ stored i j
          ((place?_of_mem n.points _ hu).1.trans (congrArg some placed_i))
          ((place?_of_mem n.points _ hv).1.trans (congrArg some placed_j))).1
        simp only [tightest, Bound.ofDistances, Number.toDistance_ofDistance, placed_i, placed_j,
          hd] at upper
        exact upper
  · refine Distances.le_ofConstraints n.points cs n.closed ?_ ?_ i j
    · intro a b
      unfold Distances.start
      split_ifs with same
      · rw [same]
        exact n.closed_diagonal_le b
      · exact le_top
    · intro e he a b ha hb
      obtain ⟨u, hu, v, hv, -, rfl, -⟩ := (mem e).mp he
      rw [(place?_of_mem n.points u hu).1] at ha
      rw [(place?_of_mem n.points v hv).1] at hb
      cases ha
      cases hb
      simp [tightest, Bound.ofDistances]

/-! ### What can be stored -/

/-- Every integer that limits the time between different points is small enough to be compared
with an infinite number. -/
def Storable (n : Network) : Prop :=
  ∀ u ∈ n.points, ∀ v ∈ n.points, u ≠ v → ∀ b, n.derived u v = .ok b →
    ∀ k, b.lo = .int k ∨ b.hi = .int k → Chronoplan.Addable k

/-- The same of the distances. -/
def AddableBetween (n : Network) (u v : String) : Prop :=
  ∀ k : ℤ, n.closed (placeIn n.points u) (placeIn n.points v) = k → Chronoplan.Addable k

theorem exists_toBinary64_iff (a : WithTop ℤ) :
    (∃ x, (Number.ofDistance a).toBinary64 = .ok x) ↔ ∀ k : ℤ, a = k → Chronoplan.Addable k := by
  simp only [Number.toBinary64, orFault_eq_ok_iff]
  cases a using WithTop.recTopCoe with
  | top => simp [Number.toBinary64?]
  | coe m => simp [Chronoplan.Addable, Option.isSome_iff_exists]

theorem exists_toBinary64_neg (a : WithTop ℤ) (h : ∀ k : ℤ, a = k → Chronoplan.Addable k) :
    ∃ x, (Number.ofDistance a).neg.toBinary64 = .ok x := by
  cases a using WithTop.recTopCoe with
  | top => exact ⟨_, rfl⟩
  | coe m =>
    refine (exists_toBinary64_iff ((-m : ℤ) : WithTop ℤ)).mpr ?_
    intro k hk
    obtain rfl : -m = k := by exact_mod_cast hk
    exact (addable_neg m).mpr (h m rfl)

theorem worthStoring_returns (back forth : WithTop ℤ)
    (hback : ∀ k : ℤ, back = k → Chronoplan.Addable k)
    (hforth : ∀ k : ℤ, forth = k → Chronoplan.Addable k) :
    ∃ worth, worthStoring (.ofDistances back forth) = .ok worth := by
  obtain ⟨x, hx⟩ := (exists_toBinary64_iff forth).mpr hforth
  obtain ⟨y, hy⟩ := exists_toBinary64_neg back hback
  cases h : x.isInfinite with
  | true => exact ⟨!y.isInfinite, by simp [worthStoring, Bound.ofDistances, hx, hy, h]⟩
  | false => exact ⟨true, by simp [worthStoring, Bound.ofDistances, hx, h]⟩

theorem addable_of_worthStoring (back forth : WithTop ℤ) (worth : Bool)
    (h : worthStoring (.ofDistances back forth) = .ok worth) :
    ∀ k : ℤ, forth = k → Chronoplan.Addable k := by
  obtain ⟨x, hx, -⟩ := (bind_eq_ok_iff _ _ _).mp h
  exact (exists_toBinary64_iff forth).mp ⟨x, hx⟩

theorem worthStoring_fault (b : Bound) (e : Fault) (h : worthStoring b = .error e) :
    e = .tooLarge := by
  obtain h | ⟨hi, -, h⟩ := (bind_eq_error_iff _ _ _).mp h
  · exact orFault_fault _ e _ h
  · split at h
    · obtain h | ⟨lo, -, h⟩ := (bind_eq_error_iff _ _ _).mp h
      · exact orFault_fault _ e _ h
      · cases h
    · cases h

/-- Every pair of different points has a derived bound. -/
theorem exists_bounds (n : Network) : ∃ bounds,
    (n.report.points.flatMap fun a => (n.report.points.filter (a != ·)).map fun b => (a, b)).mapM
      (fun p : String × String => n.report.derived p.1 p.2 >>= fun b => .ok (p, b)) = .ok bounds :=
  (exists_mapM_iff _ _).mpr fun p hp => by
    obtain ⟨hu, hv, -⟩ := (mem_pairs_iff n.points p.1 p.2).mp hp
    exact ⟨_, (derivedPair_eq_ok_iff p.1 p.2 hu hv _).mpr rfl⟩

theorem derivedConstraints_fault (n : Network) (e : Fault)
    (h : derivedConstraints n.report = .error e) : e = .tooLarge := by
  obtain h | ⟨bounds, -, h⟩ := (bind_eq_error_iff _ _ _).mp h
  · obtain ⟨found, hfound⟩ := n.exists_bounds
    exact absurd (h.symm.trans hfound) nofun
  · obtain ⟨entry, -, hentry⟩ := error_of_filterM _ bounds e h
    exact worthStoring_fault entry.2 e hentry

/-- The derived bounds are found exactly when none of their integers is too large. -/
theorem exists_derivedConstraints_iff (n : Network) :
    (∃ cs, derivedConstraints n.report = .ok cs) ↔
      ∀ u ∈ n.points, ∀ v ∈ n.points, u ≠ v → n.AddableBetween u v := by
  constructor
  · rintro ⟨cs, h⟩ u hu v hv apart
    obtain ⟨bounds, hbounds, hcs⟩ := (bind_eq_ok_iff _ _ _).mp h
    obtain ⟨worth, hworth⟩ := (exists_filterM_iff _ bounds).mp ⟨cs, hcs⟩ _
      ((mem_bounds_iff bounds hbounds _).mpr ⟨u, hu, v, hv, apart, rfl⟩)
    exact addable_of_worthStoring _ _ worth hworth
  · intro h
    obtain ⟨bounds, hbounds⟩ := n.exists_bounds
    have kept : ∃ cs, bounds.filterM (fun e => worthStoring e.2) = .ok cs := by
      refine (exists_filterM_iff _ bounds).mpr ?_
      intro e he
      obtain ⟨u, hu, v, hv, apart, rfl⟩ := (mem_bounds_iff bounds hbounds e).mp he
      exact worthStoring_returns _ _ (h v hv u hu apart.symm) (h u hu v hv apart)
    obtain ⟨cs, hcs⟩ := kept
    exact ⟨cs, (bind_eq_ok_iff _ _ _).mpr ⟨bounds, hbounds, hcs⟩⟩

theorem derived_eq_tightest (w : n.WellFormed) (ha : n.Addable) (u v : String) (hu : u ∈ n.points)
    (hv : v ∈ n.points) : n.derived u v = .ok (n.tightest u v) := by
  rw [derived, (check_eq_ok_iff n w _).mpr ⟨ha, rfl⟩, ok_bind, n.report_derived u v hu hv]
  rfl

theorem storable_iff (w : n.WellFormed) (ha : n.Addable) :
    n.Storable ↔ ∀ u ∈ n.points, ∀ v ∈ n.points, u ≠ v → n.AddableBetween u v := by
  constructor
  · intro h u hu v hv apart k hk
    refine h u hu v hv apart _ (derived_eq_tightest w ha u v hu hv) k (.inr ?_)
    rw [tightest, hk]
    rfl
  · intro h u hu v hv apart b hb k hk
    rw [derived_eq_tightest w ha u v hu hv] at hb
    cases hb
    rcases hk with hk | hk
    · refine (addable_neg k).mp (h v hv u hu apart.symm (-k) ?_)
      apply Number.ofDistance_injective
      rw [← Number.neg_neg_ofDistance, Number.ofDistance_coe, ← Number.neg_int]
      exact congrArg Number.neg hk
    · exact h u hu v hv apart k (Number.ofDistance_injective hk)

/-- The derived bounds can be stored if the integers leave one bit to every pass. -/
theorem storable_of_small (w : n.WellFormed) (size : ℕ)
    (small : ∀ e ∈ n.constraints, ∀ m : ℤ, e.2.lo = .int m ∨ e.2.hi = .int m → m.natAbs ≤ size)
    (hsize : 2 ^ n.size * size ≤ Nat.pow 2 1023) : n.Storable := by
  rw [storable_iff w (n.addable_of_small w size small hsize)]
  intro u _ v _ _ k hk
  exact n.stage_addable_of_small w size small hsize n.size (le_refl _) _ _ k hk

/-- A consistent network is propagated exactly when its derived bounds can be stored. -/
theorem exists_propagate_iff (w : n.WellFormed) (c : n.isConsistent = .ok true) :
    n.Storable ↔ ∃ m, n.propagate = .ok m := by
  obtain ⟨ha, hc⟩ := (n.isConsistent_eq_ok_iff w true).mp c
  rw [storable_iff w ha, ← exists_derivedConstraints_iff]
  constructor
  · rintro ⟨cs, hcs⟩
    exact ⟨_, (propagate_eq_ok_iff w).mpr ⟨ha, .inl ⟨hc.symm, cs, hcs, rfl⟩⟩⟩
  · rintro ⟨m, hm⟩
    obtain ⟨-, ⟨-, cs, hcs, -⟩ | ⟨conflict, -⟩⟩ := (propagate_eq_ok_iff w).mp hm
    · exact ⟨cs, hcs⟩
    · rw [conflict] at hc
      cases hc

/-- A consistent network is not propagated only because a derived bound cannot be stored. -/
theorem propagate_fault (w : n.WellFormed) (c : n.isConsistent = .ok true) (e : Fault)
    (h : n.propagate = .error e) : e = .tooLarge := by
  obtain ⟨ha, hc⟩ := (n.isConsistent_eq_ok_iff w true).mp c
  rw [propagate, (check_eq_ok_iff n w _).mpr ⟨ha, rfl⟩, ok_bind, if_pos hc.symm] at h
  obtain h | ⟨cs, -, h⟩ := (bind_eq_error_iff _ _ _).mp h
  · exact n.derivedConstraints_fault e h
  · cases h

theorem propagate_tooLarge (w : n.WellFormed) (c : n.isConsistent = .ok true)
    (large : ¬ n.Storable) : n.propagate = .error .tooLarge := by
  cases h : n.propagate with
  | ok m => exact absurd ((exists_propagate_iff w c).mpr ⟨m, h⟩) large
  | error e => rw [propagate_fault w c e h]

/-! ### After propagation -/

/-- One network is another with the derived bounds in place of the given ones. -/
structure Propagated (n m : Network) : Prop where
  addable : n.Addable
  found : n.report.consistent = true
  derived : derivedConstraints n.report = .ok m.constraints
  eq : m = { n with constraints := m.constraints, consistent := true }

theorem propagated_of_ok (w : n.WellFormed) (c : n.isConsistent = .ok true)
    (h : n.propagate = .ok m) : n.Propagated m := by
  obtain ⟨-, hc⟩ := (n.isConsistent_eq_ok_iff w true).mp c
  obtain ⟨ha, ⟨found, cs, hcs, rfl⟩ | ⟨conflict, -⟩⟩ := (propagate_eq_ok_iff w).mp h
  · exact ⟨ha, found, hcs, rfl⟩
  · rw [conflict] at hc
    cases hc

theorem closed_of_consistent (n : Network) (found : n.report.consistent = true) :
    Distances.Closed n.size n.closed :=
  Distances.closed_stage n.size n.distances (n.report_consistent.mp found) n.size (le_refl _)

namespace Propagated

variable (h : n.Propagated m)
include h

theorem points : m.points = n.points := by rw [h.eq]

theorem size : m.size = n.size := congrArg List.length h.points

theorem wellFormed : m.WellFormed := by
  rw [h.eq]
  exact derivedConstraints_fits (n := n) _ h.derived

theorem distances (sorted : n.Sorted) : Distances.AgreeOn n.size m.distances n.closed := by
  rw [Network.distances, h.points]
  exact ofConstraints_derived sorted h.found m.constraints h.derived

/-- The passes find nothing to do. -/
theorem stage (sorted : n.Sorted) (k : ℕ) (hk : k ≤ n.size) :
    Distances.AgreeOn n.size (m.distances.stage k) n.closed := by
  have agree := (h.distances sorted).stage k hk
  rwa [Distances.stage_of_closed (n.closed_of_consistent h.found) k hk] at agree

theorem report (sorted : n.Sorted) : m.report = n.report := by
  have agree := h.stage sorted n.size (le_refl _)
  rw [Network.report, Network.report, closed, h.points, h.size, agree.table]

theorem addable_again (sorted : n.Sorted) : m.Addable := by
  have between := (exists_derivedConstraints_iff n).mp ⟨_, h.derived⟩
  rw [addable_iff m h.wellFormed, h.size]
  intro k hk i hi d hd j hj _
  rw [h.stage sorted k hk.le i hi k hk] at hd
  by_cases hik : i = k
  · subst hik
    rw [closed_diagonal h.found i hi] at hd
    obtain rfl : (0 : ℤ) = d := by exact_mod_cast hd
    exact addable_of_natAbs_le 0 (Nat.zero_le _)
  · have placed_i := sorted.placeIn_getElem i hi
    have placed_k := sorted.placeIn_getElem k hk
    refine between _ (List.getElem_mem hi) _ (List.getElem_mem hk) ?_ d ?_
    · intro same
      rw [same, placed_k] at placed_i
      exact hik placed_i.symm
    · rw [placed_i, placed_k, hd]

theorem again (sorted : n.Sorted) : m.propagate = .ok m := by
  refine (propagate_eq_ok_iff h.wellFormed).mpr
    ⟨h.addable_again sorted, .inl ⟨?_, m.constraints, ?_, ?_⟩⟩
  · rw [h.report sorted]
    exact h.found
  · rw [h.report sorted]
    exact h.derived
  · rw [h.eq]

theorem solves_iff (w : n.WellFormed) (sorted : n.Sorted) (t : String → ℤ) :
    m.Solves t ↔ n.Solves t := by
  rw [← m.meets_byPlace_iff h.wellFormed t, ← n.meets_byPlace_iff w t,
    ← Distances.meets_stage n.size _ n.distances n.size (le_refl _), h.size]
  have places : m.byPlace t = n.byPlace t := by
    funext i
    rw [byPlace, byPlace, h.points]
  rw [places]
  have agree := h.distances sorted
  refine forall₂_congr fun i hi => forall₂_congr fun j hj => ?_
  rw [agree i hi j hj, closed]

/-- What is stored are the derived bounds of different points, unless they limit nothing. -/
theorem get?_eq_some_iff (u v : String) (b : Bound) :
    m.get? u v = some b ↔ u ∈ n.points ∧ v ∈ n.points ∧ u ≠ v ∧ b = n.tightest u v ∧
      b ≠ .unbounded := by
  have limits : n.tightest u v ≠ .unbounded ↔
      n.closed (placeIn n.points v) (placeIn n.points u) ≠ ⊤ ∨
        n.closed (placeIn n.points u) (placeIn n.points v) ≠ ⊤ := by
    rw [Ne, tightest, Bound.ofDistances_eq_unbounded_iff, not_and_or]
  have single := derivedConstraints_single (n := n) m.constraints h.derived
  refine (find?_eq_some_iff m.constraints single (u, v) b).trans ?_
  rw [mem_derivedConstraints_iff m.constraints h.derived]
  constructor
  · rintro ⟨u', hu, v', hv, apart, he, finite⟩
    cases he
    exact ⟨hu, hv, apart, rfl, limits.mpr finite⟩
  · rintro ⟨hu, hv, apart, rfl, bounded⟩
    exact ⟨u, hu, v, hv, apart, rfl, limits.mp bounded⟩

theorem get?_eq (u v : String) (hu : u ∈ n.points) (hv : v ∈ n.points) (apart : u ≠ v) :
    m.get? u v = if n.tightest u v = .unbounded then none else some (n.tightest u v) := by
  split_ifs with unlimited
  · rw [Option.eq_none_iff_forall_ne_some]
    intro b hb
    obtain ⟨-, -, -, rfl, bounded⟩ := (h.get?_eq_some_iff u v b).mp hb
    exact bounded unlimited
  · exact (h.get?_eq_some_iff u v _).mpr ⟨hu, hv, apart, rfl, unlimited⟩

end Propagated

end Network

/-! ### Fractions of time -/

/-- A fraction lies in a bound exactly when it does not pass what limits either direction. -/
theorem Bound.contains_ratio (back forth : WithTop ℤ) (q : ℚ) :
    (ofDistances back forth).contains (.ratio q) = true ↔
      (∀ k : ℤ, back = k → -(k : ℚ) ≤ q) ∧ ∀ k : ℤ, forth = k → q ≤ k := by
  have low : (Number.ofDistance back).neg.le (.ratio q) = true ↔
      ∀ k : ℤ, back = k → -(k : ℚ) ≤ q := by
    cases back using WithTop.recTopCoe with
    | top => simp [Number.neg, Number.le, Number.lt, Binary64.neg, Number.place?, Place.lt]
    | coe m => simp [Number.le, Number.lt, Number.eq, Number.place?, Place.lt, le_iff_lt_or_eq]
  have high : (Number.ratio q).le (Number.ofDistance forth) = true ↔
      ∀ k : ℤ, forth = k → q ≤ k := by
    cases forth using WithTop.recTopCoe with
    | top => simp [Number.le, Number.lt, Number.place?, Place.lt]
    | coe m => simp [Number.le, Number.lt, Number.eq, Number.place?, Place.lt, le_iff_lt_or_eq]
  rw [contains, Bool.and_eq_true]
  exact and_congr low high

theorem floor_apart_le_iff (x y : ℚ) (k : ℤ) :
    (∀ θ : ℚ, ⌊y + θ⌋ - ⌊x + θ⌋ ≤ k) ↔ y - x ≤ k := by
  constructor
  · intro h
    have here := h (-y)
    rw [add_neg_cancel, Int.floor_zero, zero_sub, neg_le, Int.le_floor] at here
    push_cast at here
    linarith
  · intro h θ
    have later : y + θ ≤ x + θ + k := by linarith
    have floors := Int.floor_le_floor later
    rw [Int.floor_add_intCast] at floors
    linarith

theorem Bound.contains_ratio_iff (b : Bound) (hb : b.Integral) (x y : ℚ) :
    b.contains (.ratio (y - x)) = true ↔
      ∀ θ : ℚ, b.contains (.int (⌊y + θ⌋ - ⌊x + θ⌋)) = true := by
  obtain ⟨back, forth, rfl⟩ := hb
  have side : ∀ (a : WithTop ℤ) (x y : ℚ), (∀ k : ℤ, a = k → y - x ≤ k) ↔
      ∀ θ : ℚ, ((⌊y + θ⌋ - ⌊x + θ⌋ : ℤ) : WithTop ℤ) ≤ a := by
    intro a x y
    cases a using WithTop.recTopCoe with
    | top => simp
    | coe k =>
      simp only [WithTop.coe_inj, WithTop.coe_le_coe, floor_apart_le_iff]
      exact ⟨fun h => h k rfl, fun h _ same => same ▸ h⟩
  have swap : ∀ k : ℤ, -(k : ℚ) ≤ y - x ↔ x - y ≤ k := fun k => by rw [neg_le, neg_sub]
  simp only [contains_ratio, contains_ofDistances, neg_sub, swap, forall_and, side]

namespace Network

variable {n m : Network}

/-- A solution by any times, which need not be integers. -/
def Allows (n : Network) (t : String → ℚ) : Prop :=
  ∀ e ∈ n.constraints, e.2.contains (.ratio (t e.1.2 - t e.1.1)) = true

/-- Times are allowed exactly when they solve the network rounded down from every offset. -/
theorem allows_iff (w : n.WellFormed) (t : String → ℚ) :
    n.Allows t ↔ ∀ θ : ℚ, n.Solves fun p => ⌊t p + θ⌋ := by
  constructor
  · intro h θ e he
    exact (e.2.contains_ratio_iff (w e he).integral _ _).mp (h e he) θ
  · intro h e he
    exact (e.2.contains_ratio_iff (w e he).integral _ _).mpr fun θ => h θ e he

theorem Propagated.allows_iff (h : n.Propagated m) (w : n.WellFormed) (sorted : n.Sorted)
    (t : String → ℚ) : m.Allows t ↔ n.Allows t := by
  rw [Network.allows_iff h.wellFormed, Network.allows_iff w]
  exact forall_congr' fun θ => h.solves_iff w sorted _

end Network

/-! ## A late relay

The legs take longer than there is time for both, which no single bound shows. -/

namespace Relay

def late : Network := network.addBound "start" "finish" ⟨.int 0, .int 12⟩

theorem late_reachable : late.Reachable :=
  .write _ _ (.bound "start" "finish" (.int 0) (.int 12)) network_reachable
    ⟨.ofInt 0, .ofInt 12⟩ rfl

theorem late_inconsistent : late.isConsistent = .ok false := by rfl

theorem late_reported : late.check.toOption.map Report.negative =
    some ["finish", "handover", "start"] := by decide +kernel

theorem network_storable : network.Storable := by
  refine Network.storable_of_small network_reachable.wellFormed 40 ?_ (by decide +kernel)
  simp [network_constraints, or_imp, forall_and]

end Relay

/-! ## What propagation keeps -/

/-- A consistent network is propagated exactly when its derived bounds can be stored; one of them
is too large otherwise. The times that solve it stay the same, integers or not, every pair of
different points has its derived bound stored unless that limits nothing, and a second propagation
changes nothing. A network in conflict is only flagged. -/
theorem Network.propagate_keeps_meaning (n : Network) (r : n.Reachable) :
    (n.isConsistent = .ok true →
      (n.Storable ↔ ∃ m, n.propagate = .ok m) ∧
      (¬ n.Storable → n.propagate = .error .tooLarge) ∧
      ∀ m, n.propagate = .ok m →
        ((∀ t, m.Solves t ↔ n.Solves t) ∧ ∀ t, m.Allows t ↔ n.Allows t) ∧
        (∀ u ∈ n.points, ∀ v ∈ n.points, u ≠ v → ∃ b, n.derived u v = .ok b ∧
          m.get? u v = if b = .unbounded then none else some b) ∧
        (∀ u v b, m.get? u v = some b → u ∈ n.points ∧ v ∈ n.points ∧ u ≠ v) ∧
        m.points = n.points ∧ m.consistent = true ∧ m.propagate = .ok m) ∧
    (n.isConsistent = .ok false → n.propagate = .ok { n with consistent := false }) := by
  have w := r.wellFormed
  have sorted := r.sorted
  constructor
  · intro c
    refine ⟨exists_propagate_iff w c, propagate_tooLarge w c, fun m hm => ?_⟩
    have h := propagated_of_ok w c hm
    refine ⟨⟨h.solves_iff w sorted, h.allows_iff w sorted⟩, ?_, ?_, h.points, ?_, h.again sorted⟩
    · intro u hu v hv apart
      exact ⟨_, derived_eq_tightest w h.addable u v hu hv, h.get?_eq u v hu hv apart⟩
    · intro u v b hb
      obtain ⟨hu, hv, apart, -⟩ := (h.get?_eq_some_iff u v b).mp hb
      exact ⟨hu, hv, apart⟩
    · rw [h.eq]
  · intro c
    obtain ⟨ha, hc⟩ := (n.isConsistent_eq_ok_iff w false).mp c
    exact (propagate_eq_ok_iff w).mpr ⟨ha, .inr ⟨hc.symm, rfl⟩⟩

/-- Propagation tightens the second leg of a relay, and it tells that a relay is late. -/
theorem Relay.tightened :
    Relay.network.Reachable ∧ Relay.network.isConsistent = .ok true ∧ Relay.late.Reachable ∧
      Relay.late.consistent = true ∧ Relay.late.isConsistent = .ok false ∧
      (∃ m, Relay.network.propagate = .ok m ∧ (∀ t, m.Allows t ↔ Relay.network.Allows t) ∧
        m.get? "handover" "finish" = some ⟨.int 5, .int 30⟩ ∧ m.propagate = .ok m) ∧
      Relay.late.propagate = .ok { Relay.late with consistent := false } := by
  have handover : "handover" ∈ Relay.network.points := by decide
  have finish : "finish" ∈ Relay.network.points := by decide
  obtain ⟨kept, -⟩ := Relay.network.propagate_keeps_meaning Relay.network_reachable
  obtain ⟨-, flagged⟩ := Relay.late.propagate_keeps_meaning Relay.late_reachable
  obtain ⟨stores, -, keeps⟩ := kept Relay.network_consistent
  obtain ⟨m, hm⟩ := stores.mp Relay.network_storable
  obtain ⟨⟨-, allows⟩, derived, -, -, -, again⟩ := keeps m hm
  obtain ⟨b, hb, stored⟩ := derived "handover" handover "finish" finish (by decide)
  have tight : Relay.network.derived "handover" "finish" = .ok ⟨.int 5, .int 30⟩ := by rfl
  rw [tight] at hb
  cases hb
  exact ⟨Relay.network_reachable, Relay.network_consistent, Relay.late_reachable, rfl,
    Relay.late_inconsistent, ⟨m, hm, allows, stored, again⟩, flagged Relay.late_inconsistent⟩

/-! ## A haul too long

The way to the gate and the way from there to the haul can be stored, but not both together. -/

namespace Freight

def leg : ℤ := (3 * Nat.pow 2 1022 : ℕ)

def arrived : Network := Network.standard.addBound originPoint "gate" ⟨.int leg, .int leg⟩

def entered : Network := arrived.addBound "gate" "haul_start" ⟨.int leg, .int leg⟩

def network : Network := entered.addBound "haul_start" "haul_end" ⟨.int 1, .int 1⟩

theorem leg_accepted : Bound.ofValues (.int leg) (.int leg) = .ok ⟨.int leg, .int leg⟩ :=
  toOption_eq_some_iff.mp (by decide +kernel)

theorem network_reachable : network.Reachable := by
  have one : arrived.Reachable := .write Network.standard _
    (.bound originPoint "gate" (.int leg) (.int leg)) (.empty .second .medium false 4)
    ⟨.ofInt leg, .ofInt leg⟩ (by rw [Network.Write.apply, Network.addConstraint, leg_accepted]; rfl)
  have two : entered.Reachable := .write _ _ (.bound "gate" "haul_start" (.int leg) (.int leg)) one
    ⟨.ofInt leg, .ofInt leg⟩ (by rw [Network.Write.apply, Network.addConstraint, leg_accepted]; rfl)
  exact .write _ _ (.bound "haul_start" "haul_end" (.int 1) (.int 1)) two ⟨.ofInt 1, .ofInt 1⟩ rfl

theorem network_consistent : network.isConsistent = .ok true :=
  toOption_eq_some_iff.mp (by decide +kernel)

theorem network_refused : network.propagate = .error .tooLarge :=
  stopsTooLarge_iff.mp (by decide +kernel)

/-- Neither the bounds nor anything that the check adds to an infinite number is too large. -/
theorem unpropagated :
    network.Reachable ∧ network.isConsistent = .ok true ∧ network.Addable ∧
      (∀ e ∈ network.constraints, e.2.Small) ∧ network.propagate = .error .tooLarge := by
  obtain ⟨addable, -⟩ :=
    (network.isConsistent_eq_ok_iff network_reachable.wellFormed true).mp network_consistent
  exact ⟨network_reachable, network_consistent, addable, by decide +kernel, network_refused⟩

end Freight

end Chronoplan
