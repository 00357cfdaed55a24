import Chronoplan.Proofs.Network.Check

/-!
# Negative cycles

The constraints are the edges of a graph whose weights are limits of the time from one point to
another. Where a cycle of the graph has a negative weight the closure is not a table of shortest
distances any more. Two facts remain: every cell is the length of some walk, and no cell is longer
than a walk that meets no point twice in between. So the points that a check reports are those of
the simple negative cycles and otherwise only points with a negative walk back to themselves.
-/

set_option autoImplicit false

namespace Chronoplan

namespace Distances

/-! ### Lengths of walks -/

/-- The length of the walk from a point through others to a last one. -/
def along (D : Distances) : ℕ → List ℕ → ℕ → WithTop ℤ
  | i, [], j => D i j
  | i, k :: ks, j => D i k + along D k ks j

theorem along_append (D : Distances) (i k j : ℕ) (before after : List ℕ) :
    D.along i (before ++ k :: after) j = D.along i before k + D.along k after j := by
  induction before generalizing i with
  | nil => rfl
  | cons l before ih => rw [List.cons_append, along, along, ih, add_assoc]

/-- After the passes through the points below `k` no cell is longer than a walk through such points
that meets none of them twice. Negative cycles do not matter: a walk is cut at `k` once only. -/
theorem stage_le_along (D : Distances) (k i j : ℕ) (ks : List ℕ) (once : ks.Nodup)
    (below : ∀ l ∈ ks, l < k) : D.stage k i j ≤ D.along i ks j := by
  induction k generalizing i j ks with
  | zero =>
    cases ks with
    | nil => exact le_refl _
    | cons l ks => exact absurd (below l List.mem_cons_self) (Nat.not_lt_zero l)
  | succ k ih =>
    have earlier : ∀ ls : List ℕ, (∀ l ∈ ls, l ∈ ks) → k ∉ ls → ∀ l ∈ ls, l < k := by
      intro ls part other l hl
      have le := below l (part l hl)
      have ne : l ≠ k := fun same => other (same ▸ hl)
      omega
    by_cases met : k ∈ ks
    · obtain ⟨before, after, rfl⟩ := List.append_of_mem met
      obtain ⟨here, once⟩ := List.nodup_cons.mp (List.nodup_middle.mp once)
      rw [List.mem_append, not_or] at here
      rw [along_append]
      refine (pass_le_add _ k i j).trans (add_le_add ?_ ?_)
      · exact ih i k before (once.sublist (List.sublist_append_left _ _))
          (earlier before (fun l hl => List.mem_append_left _ hl) here.1)
      · exact ih k j after (once.sublist (List.sublist_append_right _ _))
          (earlier after (fun l hl => List.mem_append_right _ (List.mem_cons_of_mem k hl)) here.2)
    · exact (pass_le _ k i j).trans (ih i j ks once (earlier ks (fun _ hl => hl) met))

theorem exists_along_eq_stage (D : Distances) (k i j : ℕ) :
    ∃ ks, (∀ l ∈ ks, l < k) ∧ D.along i ks j = D.stage k i j := by
  induction k generalizing i j with
  | zero => exact ⟨[], by simp, rfl⟩
  | succ k ih =>
    rcases min_choice (D.stage k i j) (D.stage k i k + D.stage k k j) with old | detour
    · obtain ⟨ks, below, same⟩ := ih i j
      exact ⟨ks, fun l hl => (below l hl).trans k.lt_succ_self, same.trans old.symm⟩
    · obtain ⟨before, below, first⟩ := ih i k
      obtain ⟨after, below', second⟩ := ih k j
      refine ⟨before ++ k :: after, ?_, ?_⟩
      · intro l hl
        rcases List.mem_append.mp hl with hl | hl
        · exact (below l hl).trans k.lt_succ_self
        · rcases List.mem_cons.mp hl with rfl | hl
          · exact l.lt_succ_self
          · exact (below' l hl).trans k.lt_succ_self
      · rw [along_append, first, second]
        exact detour.symm

end Distances

/-! ### Walks of the distance graph -/

/-- By some constraint the time from one point to another is at most a number. -/
def Edge (points : List String) (constraints : Constraints) (u v : String) (w : ℤ) : Prop :=
  u ∈ points ∧ v ∈ points ∧ ∃ e ∈ constraints,
    e.1 = (u, v) ∧ e.2.hi = .int w ∨ e.1 = (v, u) ∧ e.2.lo = .int (-w)

/-- Edges from one point through others to a last one, with their total weight. -/
inductive Walk (points : List String) (constraints : Constraints) :
    String → List String → String → ℤ → Prop
  | edge (u v : String) (w : ℤ) : Edge points constraints u v w → Walk points constraints u [] v w
  | step (u x v : String) (xs : List String) (w w' : ℤ) : Edge points constraints u x w →
    Walk points constraints x xs v w' → Walk points constraints u (x :: xs) v (w + w')

/-- A closed walk of negative weight that meets no point twice, by its points. -/
def NegativeCycle (points : List String) (constraints : Constraints) : List String → Prop
  | [] => False
  | u :: xs => (u :: xs).Nodup ∧ ∃ w < 0, Walk points constraints u xs u w

section Walks

variable {points : List String} {constraints : Constraints}

theorem Walk.append_iff (u x v : String) (before after : List String) (w : ℤ) :
    Walk points constraints u (before ++ x :: after) v w ↔ ∃ a b,
      Walk points constraints u before x a ∧ Walk points constraints x after v b ∧ w = a + b := by
  induction before generalizing u w with
  | nil =>
    constructor
    · rintro (_ | ⟨_, _, _, _, a, b, first, rest⟩)
      exact ⟨a, b, .edge u x a first, rest, rfl⟩
    · rintro ⟨a, b, ⟨_, _, _, first⟩ | _, rest, rfl⟩
      exact .step u x v after a b first rest
  | cons y before ih =>
    constructor
    · rintro (_ | ⟨_, _, _, _, a, b, first, rest⟩)
      obtain ⟨c, d, between, last, rfl⟩ := (ih y b).mp rest
      exact ⟨a + c, d, .step u y x before a c first between, last, (add_assoc a c d).symm⟩
    · rintro ⟨_, d, _ | ⟨_, _, _, _, a, c, first, rest⟩, last, rfl⟩
      rw [List.cons_append, add_assoc]
      exact .step u y v _ a (c + d) first ((ih y (c + d)).mpr ⟨c, d, rest, last, rfl⟩)

theorem Walk.mem (u v : String) (xs : List String) (w : ℤ) (h : Walk points constraints u xs v w) :
    ∀ p ∈ u :: xs, p ∈ points := by
  induction h with
  | edge u v w first => simpa using first.1
  | step u x v xs w w' first _ ih => exact List.forall_mem_cons.mpr ⟨first.1, ih⟩

/-- A closed walk can start at any of its points. -/
theorem Walk.rotate (u : String) (xs : List String) (w : ℤ)
    (h : Walk points constraints u xs u w) (p : String) (hp : p ∈ u :: xs) :
    ∃ ys, Walk points constraints p ys p w ∧ (p :: ys).Perm (u :: xs) := by
  rcases List.mem_cons.mp hp with rfl | hp
  · exact ⟨xs, h, .refl _⟩
  · obtain ⟨before, after, rfl⟩ := List.append_of_mem hp
    obtain ⟨a, b, first, second, rfl⟩ := (append_iff u p u before after w).mp h
    refine ⟨after ++ u :: before, ?_, ?_⟩
    · exact (append_iff p u p after before _).mpr ⟨b, a, second, first, add_comm a b⟩
    · have turned : ((p :: after) ++ (u :: before)).Perm ((u :: before) ++ (p :: after)) :=
        List.perm_append_comm
      exact turned

theorem exists_twice {α : Type} (l : List α) (h : ¬ l.Nodup) :
    ∃ before x between after, l = before ++ x :: (between ++ x :: after) := by
  obtain ⟨x, twice⟩ := List.exists_duplicate_iff_not_nodup.mpr h
  obtain ⟨left, right, rfl, inLeft, inRight⟩ :=
    List.cons_sublist_iff.mp (List.duplicate_iff_sublist.mp twice)
  obtain ⟨before, between, rfl⟩ := List.append_of_mem inLeft
  obtain ⟨between', after, rfl⟩ := List.append_of_mem (List.singleton_sublist.mp inRight)
  exact ⟨before, x, between ++ between', after, by simp⟩

/-- A closed walk of negative weight falls apart into simple ones, of which one is negative. -/
theorem Walk.exists_negativeCycle (u : String) (xs : List String) (w : ℤ)
    (h : Walk points constraints u xs u w) (negative : w < 0) :
    ∃ cycle, NegativeCycle points constraints cycle := by
  induction hlen : xs.length using Nat.strong_induction_on generalizing u xs w with
  | h len ih =>
    subst hlen
    by_cases once : (u :: xs).Nodup
    · exact ⟨u :: xs, once, w, negative, h⟩
    obtain ⟨before, x, between, after, split⟩ := exists_twice _ once
    cases before with
    | nil =>
      obtain ⟨rfl, rfl⟩ := List.cons.inj split
      obtain ⟨a, b, first, second, rfl⟩ := (append_iff u u u between after w).mp h
      by_cases ha : a < 0
      · exact ih between.length (by simp) u between a first ha rfl
      · exact ih after.length (by simp; omega) u after b second (by omega) rfl
    | cons _ before =>
      obtain ⟨rfl, rfl⟩ := List.cons.inj split
      obtain ⟨a, _, first, rest, rfl⟩ := (append_iff u x u before _ w).mp h
      obtain ⟨b, c, loop, last, rfl⟩ := (append_iff x x u between after _).mp rest
      by_cases hb : b < 0
      · exact ih between.length (by simp; omega) x between b loop hb rfl
      · exact ih (before ++ x :: after).length (by simp) u _ (a + c)
          ((append_iff u x u before after _).mpr ⟨a, c, first, last, rfl⟩) (by omega) rfl

/-! ### Walks as lengths -/

theorem Edge.distance_le (u v : String) (w : ℤ)
    (h : Edge points constraints u v w) :
    Distances.ofConstraints points constraints (placeIn points u) (placeIn points v) ≤ w := by
  obtain ⟨hu, hv, e, he, ⟨ends, limit⟩ | ⟨ends, limit⟩⟩ := h
  · have asked := (Distances.ofConstraints_le points constraints e he (placeIn points u)
      (placeIn points v) (by rw [ends]; exact (place?_of_mem points u hu).1)
      (by rw [ends]; exact (place?_of_mem points v hv).1)).1
    rwa [limit] at asked
  · have asked := (Distances.ofConstraints_le points constraints e he (placeIn points v)
      (placeIn points u) (by rw [ends]; exact (place?_of_mem points v hv).1)
      (by rw [ends]; exact (place?_of_mem points u hu).1)).2
    rwa [limit, Number.neg_int, neg_neg] at asked

theorem Walk.along_le (u v : String) (xs : List String) (w : ℤ)
    (h : Walk points constraints u xs v w) :
    (Distances.ofConstraints points constraints).along (placeIn points u) (xs.map (placeIn points))
      (placeIn points v) ≤ w := by
  induction h with
  | edge u v w first => exact first.distance_le
  | step u x v xs w w' first _ ih =>
    rw [List.map_cons, Distances.along, WithTop.coe_add]
    exact add_le_add (first.distance_le) ih

theorem getElem?_of_place? (p : String) (i : ℕ) (h : Matrix.place? points p = some i) :
    points[i]? = some p := by
  obtain ⟨placed, found⟩ := place?_of_mem points p (mem_of_place? points p i h)
  rw [h, Option.some.injEq] at placed
  rw [placed, found]

/-- A distance with a limit is the weight of an edge, or the zero from a point to itself. -/
theorem edge_of_distance (integral : ∀ e ∈ constraints, e.2.Integral) (i j : ℕ) (u v : String)
    (hu : points[i]? = some u) (hv : points[j]? = some v) (w : ℤ)
    (h : Distances.ofConstraints points constraints i j = w) :
    Edge points constraints u v w ∨ u = v ∧ w = 0 := by
  have toInt : ∀ x : Number, x.toDistance = w → x = .int w := by
    intro x hx
    cases x <;> simp_all [Number.toDistance]
  rcases Distances.ofConstraints_attained points constraints i j w h with zero | ⟨e, he, asked⟩
  · unfold Distances.start at zero
    split_ifs at zero with same
    · subst same
      exact .inr ⟨Option.some.inj (hu.symm.trans hv), by exact_mod_cast zero.symm⟩
    · cases zero
  · refine .inl ⟨List.mem_of_getElem? hu, List.mem_of_getElem? hv, e, he, ?_⟩
    rcases asked with ⟨first, second, limit⟩ | ⟨first, second, limit⟩
    · have atFirst := (getElem?_of_place? _ i first).symm.trans hu
      have atSecond := (getElem?_of_place? _ j second).symm.trans hv
      exact .inl ⟨Prod.ext (Option.some.inj atFirst) (Option.some.inj atSecond), toInt _ limit⟩
    · have atFirst := (getElem?_of_place? _ i first).symm.trans hu
      have atSecond := (getElem?_of_place? _ j second).symm.trans hv
      refine .inr ⟨Prod.ext (Option.some.inj atSecond) (Option.some.inj atFirst), ?_⟩
      obtain ⟨back, forth, hb⟩ := integral e he
      rw [hb, Bound.ofDistances, Number.neg_neg_ofDistance, Number.toDistance_ofDistance] at limit
      rw [hb, Bound.ofDistances, limit, Number.ofDistance_coe, Number.neg_int]

theorem walk_of_along (integral : ∀ e ∈ constraints, e.2.Integral) (i j : ℕ) (ks : List ℕ)
    (known : ∀ k ∈ ks, k < points.length) (u v : String) (hu : points[i]? = some u)
    (hv : points[j]? = some v) (w : ℤ)
    (h : (Distances.ofConstraints points constraints).along i ks j = w) :
    (∃ xs, Walk points constraints u xs v w) ∨ u = v ∧ w = 0 := by
  induction ks generalizing i u w with
  | nil =>
    exact (edge_of_distance integral i j u v hu hv w h).imp_left fun first =>
      ⟨[], .edge u v w first⟩
  | cons k ks ih =>
    obtain ⟨hk, known⟩ := List.forall_mem_cons.mp known
    obtain ⟨a, b, ha, hb, rfl⟩ := WithTop.add_eq_coe.mp h
    have hx := List.getElem?_eq_getElem hk
    have rest := ih k known _ hx b hb.symm
    rcases edge_of_distance integral i k u _ hu hx a ha.symm with first | ⟨rfl, rfl⟩
    · left
      rcases rest with ⟨xs, rest⟩ | ⟨rfl, rfl⟩
      · exact ⟨_, .step u _ v xs a b first rest⟩
      · exact ⟨[], by rw [add_zero]; exact .edge u _ a first⟩
    · rwa [zero_add]

/-! ### Cells of the closure -/

theorem placeIn_inj (p q : String) (hp : p ∈ points) (hq : q ∈ points)
    (h : placeIn points p = placeIn points q) : p = q := by
  have found := (place?_of_mem points p hp).2
  rw [h, (place?_of_mem points q hq).2] at found
  exact (Option.some.inj found).symm

/-- Every point of a simple negative cycle ends up at a negative distance from itself. -/
theorem NegativeCycle.reported (cycle : List String)
    (h : NegativeCycle points constraints cycle) (p : String) (hp : p ∈ cycle) :
    p ∈ (Report.closing points constraints).negative := by
  cases cycle with
  | nil => exact h.elim
  | cons u xs =>
    obtain ⟨once, w, negative, walk⟩ := h
    obtain ⟨ys, walk, perm⟩ := walk.rotate u xs w p hp
    have known := walk.mem
    have once := (List.nodup_cons.mp (perm.nodup_iff.mpr once)).2
    refine (mem_negativePoints_iff points _ p).mpr
      ⟨placeIn points p, (place?_of_mem points p (known p List.mem_cons_self)).2, ?_⟩
    refine lt_of_le_of_lt (Distances.stage_le_along _ points.length _ _ (ys.map (placeIn points))
      (once.map_on ?_) ?_) (lt_of_le_of_lt walk.along_le (by exact_mod_cast negative))
    · intro x hx y hy
      exact placeIn_inj x y (known x (List.mem_cons_of_mem p hx))
        (known y (List.mem_cons_of_mem p hy))
    · intro l hl
      obtain ⟨x, hx, rfl⟩ := List.mem_map.mp hl
      exact placeIn_lt points x (known x (List.mem_cons_of_mem p hx))

/-- A negative distance of a point from itself is the weight of a walk. -/
theorem exists_negative_walk (integral : ∀ e ∈ constraints, e.2.Integral) (p : String)
    (h : p ∈ (Report.closing points constraints).negative) :
    ∃ xs w, Walk points constraints p xs p w ∧ w < 0 := by
  obtain ⟨i, hp, below⟩ := (mem_negativePoints_iff points _ p).mp h
  obtain ⟨w, hw⟩ := WithTop.ne_top_iff_exists.mp (ne_top_of_lt below)
  obtain ⟨ks, known, same⟩ := Distances.exists_along_eq_stage
    (Distances.ofConstraints points constraints) points.length i i
  rw [← hw] at below same
  have negative : w < 0 := by exact_mod_cast below
  rcases walk_of_along integral i i ks known p p hp hp w same with ⟨xs, walk⟩ | ⟨-, zero⟩
  · exact ⟨xs, w, walk, negative⟩
  · omega

end Walks

/-! ## A rehearsal

The second act is to begin at least four minutes after the first and at most three, and the end is
to be one minute after itself. The spare act hangs on the first one only. -/

namespace Rehearsal

def points : List String := ["second", "end", "first", "spare"]

def constraints : Constraints :=
  [(("first", "second"), ⟨.int 4, .int 6⟩), (("second", "first"), ⟨.int (-3), .posInf⟩),
    (("first", "spare"), ⟨.int 0, .int 9⟩), (("end", "end"), ⟨.int 1, .int 5⟩),
    (("spare", "interval"), ⟨.int 7, .int 2⟩)]

theorem constraints_integral : ∀ e ∈ constraints, e.2.Integral := by
  simp only [constraints, List.forall_mem_cons, List.not_mem_nil, false_implies, implies_true,
    and_true]
  exact ⟨⟨(-4 : ℤ), (6 : ℤ), rfl⟩, ⟨(3 : ℤ), ⊤, rfl⟩, ⟨(0 : ℤ), (9 : ℤ), rfl⟩,
    ⟨(-1 : ℤ), (5 : ℤ), rfl⟩, ⟨(-7 : ℤ), (2 : ℤ), rfl⟩⟩

end Rehearsal

/-! ## What a report tells -/

/-- The reported points come in their order. Those of every simple negative cycle are among them,
each has a negative walk back to itself, and there are none exactly when no cycle is negative. -/
structure Report.Localises (r : Report) (points : List String) (constraints : Constraints) :
    Prop where
  ordered : r.negative.Sublist points
  found : ∀ cycle, NegativeCycle points constraints cycle → ∀ p ∈ cycle, p ∈ r.negative
  real : ∀ p ∈ r.negative, ∃ xs w, Walk points constraints p xs p w ∧ w < 0
  nil_iff : r.negative = [] ↔ ∀ cycle, ¬ NegativeCycle points constraints cycle

theorem closing_localises {points : List String} {constraints : Constraints}
    (integral : ∀ e ∈ constraints, e.2.Integral) :
    (Report.closing points constraints).Localises points constraints := by
  have ordered : (Report.closing points constraints).negative.Sublist points := by
    have part : (Report.closing points constraints).negative.Sublist
        (points.zipIdx.map Prod.fst) := List.filter_sublist.map Prod.fst
    rwa [List.zipIdx_map_fst] at part
  refine ⟨ordered, fun cycle h => h.reported cycle, exists_negative_walk integral, ?_⟩
  constructor
  · intro none cycle h
    cases cycle with
    | nil => exact h
    | cons u xs =>
      have reported := h.reported _ u List.mem_cons_self
      rw [none] at reported
      cases reported
  · intro none
    rw [List.eq_nil_iff_forall_not_mem]
    intro p hp
    obtain ⟨xs, w, walk, negative⟩ := exists_negative_walk integral p hp
    obtain ⟨cycle, h⟩ := walk.exists_negativeCycle p xs w negative
    exact none cycle h

/-- A check of integer or infinite bounds ends exactly when no integer is too large for its passes,
and its report localises the conflict. -/
theorem checkConsistency_localises (points : List String) (constraints : Constraints)
    (integral : ∀ e ∈ constraints, e.2.Integral) (parallel : Bool) (workers : Int) :
    ((Matrix.build points constraints).Addable ↔
        ∃ r, checkConsistency points constraints parallel workers = .ok r) ∧
      ∀ r, checkConsistency points constraints parallel workers = .ok r →
        r.Localises points constraints := by
  have ends := checkConsistency_eq_ok_iff points constraints integral parallel workers
  constructor
  · constructor
    · intro addable
      exact ⟨_, (ends _).mpr ⟨addable, rfl⟩⟩
    · rintro ⟨r, hr⟩
      exact ((ends r).mp hr).1
  · intro r hr
    obtain ⟨-, rfl⟩ := (ends r).mp hr
    exact closing_localises integral

/-- Both acts and the end are reported. The spare act is on no simple negative cycle and is not,
though a negative walk leads from it over both acts back to it. -/
theorem Rehearsal.localised :
    (∀ e ∈ Rehearsal.constraints, e.2.Integral) ∧
      NegativeCycle Rehearsal.points Rehearsal.constraints ["first", "second"] ∧
      ∃ r, checkConsistency Rehearsal.points Rehearsal.constraints true 2 = .ok r ∧
        r.Localises Rehearsal.points Rehearsal.constraints ∧ "second" ∈ r.negative ∧
        r.negative = ["second", "end", "first"] := by
  have known : ∀ p ∈ ["first", "second"], p ∈ Rehearsal.points := by decide
  have cycle : NegativeCycle Rehearsal.points Rehearsal.constraints ["first", "second"] := by
    refine ⟨by decide, 3 + -4, by decide, .step _ "second" _ [] 3 (-4) ?_ (.edge _ _ _ ?_)⟩
    · exact ⟨known _ (by decide), known _ (by decide), (("second", "first"), ⟨.int (-3), .posInf⟩),
        by decide, .inr ⟨rfl, rfl⟩⟩
    · exact ⟨known _ (by decide), known _ (by decide), (("first", "second"), ⟨.int 4, .int 6⟩),
        by decide, .inr ⟨rfl, rfl⟩⟩
  have listed : (checkConsistency Rehearsal.points Rehearsal.constraints true 2).toOption.map
      Report.negative = some ["second", "end", "first"] := by decide +kernel
  obtain ⟨r, hr, negative⟩ := Option.map_eq_some_iff.mp listed
  have checked := toOption_eq_some_iff.mp hr
  have localises := (checkConsistency_localises Rehearsal.points Rehearsal.constraints
    Rehearsal.constraints_integral true 2).2 r checked
  exact ⟨Rehearsal.constraints_integral, cycle, r, checked, localises,
    localises.found _ cycle "second" (by decide), negative⟩

end Chronoplan
