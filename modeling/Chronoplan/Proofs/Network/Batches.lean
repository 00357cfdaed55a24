import Chronoplan.Proofs.Network.Meets
import Chronoplan.Proofs.Network.Propagation

/-!
# Batches of constraints

Each constraint of a batch is met with what is stored on its pair of points, read both ways; on a
pair of a point with itself it is met twice. So a stored bound is decided by the readings of all
constraints, and the flag by the bounds that are stored at the end, since numbers that have crossed
stay crossed. Neither depends on the order of the constraints or on how often one is repeated.
-/

set_option autoImplicit false

namespace Chronoplan

/-! ### Readings -/

/-- An entry of a batch as it is given: two points and the values of a bound between them. -/
abbrev Request := String × String × Value × Value

/-- A bound on the time from one point to another. -/
structure Constraint where
  first : String
  second : String
  bound : Bound

namespace Constraint

def request (e : Constraint) : Request :=
  (e.first, e.second, .num e.bound.lo, .num e.bound.hi)

/-- What a constraint says on the time from one point to another, read forwards and negated. -/
def readings (e : Constraint) (u v : String) : List Bound :=
  (if (e.first, e.second) = (u, v) then [e.bound] else []) ++
    (if (e.second, e.first) = (u, v) then [e.bound.negate] else [])

theorem readings_integral (e : Constraint) (u v : String) (h : e.bound.Integral) :
    ∀ b ∈ e.readings u v, b.Integral := by
  intro b hb
  unfold readings at hb
  rcases List.mem_append.mp hb with hb | hb <;> split_ifs at hb
  · rwa [List.mem_singleton.mp hb]
  · cases hb
  · rw [List.mem_singleton.mp hb]
    exact h.negate e.bound
  · cases hb

theorem pair_of_readings (e : Constraint) (u v : String) (h : e.readings u v ≠ []) :
    (e.first, e.second) = (u, v) ∨ (e.second, e.first) = (u, v) := by
  by_contra apart
  obtain ⟨forward, reverse⟩ := not_or.mp apart
  exact h (by rw [readings, if_neg forward, if_neg reverse, List.append_nil])

end Constraint

/-- What all constraints of a batch say on the time from one point to another. -/
def readings (es : List Constraint) (u v : String) : List Bound := es.flatMap (·.readings u v)

theorem readings_integral (es : List Constraint) (h : ∀ e ∈ es, e.bound.Integral) (u v : String) :
    ∀ b ∈ readings es u v, b.Integral := by
  intro b hb
  obtain ⟨e, he, hb⟩ := List.mem_flatMap.mp hb
  exact e.readings_integral u v (h e he) b hb

theorem mem_readings_congr {es es' : List Constraint} (same : ∀ e, e ∈ es' ↔ e ∈ es)
    (u v : String) (b : Bound) : b ∈ readings es' u v ↔ b ∈ readings es u v := by
  simp only [readings, List.mem_flatMap, same]

/-! ### Bounds that are equal to themselves or in order -/

theorem Number.Integral.alike_self {x : Number} (h : x.Integral) : x.alike x = true := by
  obtain rfl | rfl | ⟨m, rfl⟩ := h.cases
  · rfl
  · rfl
  · simp [Number.alike]

namespace Bound

theorem Integral.same_self {b : Bound} (h : b.Integral) : b.same b = true :=
  Bool.and_eq_true_iff.mpr ⟨h.lo_integral.alike_self, h.hi_integral.alike_self⟩

/-- The tightest of bounds that do not differ from themselves does not either. -/
theorem Tightest.same {b : Bound} {bs : List Bound} (h : b.Tightest bs)
    (self : ∀ x ∈ bs, x.same x = true) : b.same b = true := by
  obtain ⟨x, hx, low⟩ := h.lower
  obtain ⟨y, hy, high⟩ := h.upper
  have lower := (Bool.and_eq_true_iff.mp (self x hx)).1
  have upper := (Bool.and_eq_true_iff.mp (self y hy)).2
  rw [low] at lower
  rw [high] at upper
  exact Bool.and_eq_true_iff.mpr ⟨lower, upper⟩

end Bound

/-- A stored bound, if there is one, has its numbers in order. -/
def Uncrossed (stored : Option Bound) : Prop := ∀ b, stored = some b → b.crossed = false

theorem uncrossed_some (b : Bound) : Uncrossed (some b) ↔ b.crossed = false := by
  simp [Uncrossed]

theorem Uncrossed.of_metAll {old : Option Bound} {bs : List Bound} (h : Uncrossed (metAll old bs)) :
    Uncrossed old := by
  rintro b rfl
  rw [metAll_some, uncrossed_some] at h
  rw [← Bool.not_eq_true]
  intro crossed
  exact Bool.false_ne_true (h.symm.trans (Bound.crossed_foldl bs b crossed))

/-- Narrowing by a bound in order tells whether what is then stored is in order. -/
theorem narrow_kept_iff (key : String × String) (b : Bound) (c : Constraints)
    (hb : b.crossed = false) :
    (c.narrow key b).2 = true ↔ Uncrossed (met (c.find? samePair key) b) := by
  unfold Constraints.narrow met
  cases c.find? samePair key with
  | none => simp [uncrossed_some, hb]
  | some old => simp [uncrossed_some]

/-- A table is equal to one with the same entries when no value differs from itself. -/
theorem sameTable_of_perm {κ ν : Type} [BEq κ] [LawfulBEq κ] {sameValue : ν → ν → Bool}
    {t t' : Table κ ν} (h : t.Perm t') (once : t'.keys.Nodup)
    (self : ∀ e ∈ t, sameValue e.2 e.2 = true) :
    sameTable (· == ·) sameValue t t' = true := by
  rw [sameTable, Bool.and_eq_true, List.all_eq_true]
  refine ⟨beq_iff_eq.mpr h.length_eq, fun e he => ?_⟩
  rw [(find?_eq_some_iff_of_nodup t' once e.1 e.2).mpr (h.subset he)]
  exact self e he

namespace Network

variable {n : Network}

/-- A network with one more constraint. -/
def add (n : Network) (e : Constraint) : Network := n.addBound e.first e.second e.bound

/-! ### Listed networks -/

/-- The points are in ascending order, each once, and no pair has two bounds. -/
structure Listed (n : Network) : Prop where
  sorted : n.Sorted
  once : (Table.keys n.constraints).Nodup

theorem narrow_keys_nodup (key : String × String) (b : Bound) (c : Constraints)
    (h : (Table.keys c).Nodup) : (Table.keys (c.narrow key b).1).Nodup := by
  unfold Constraints.narrow
  cases c.find? samePair key with
  | none => exact keys_insert_nodup key b c h
  | some old => exact keys_insert_nodup key (old.meet b) c h

theorem erase_once (key : String × String) (c : Constraints) (h : (Table.keys c).Nodup) :
    (Table.keys (c.erase samePair key)).Nodup :=
  h.sublist ((erase_sublist samePair key c).map Prod.fst)

theorem pairs_nodup (points : List String) (h : points.Nodup) :
    (points.flatMap fun a => (points.filter (a != ·)).map fun b => (a, b)).Nodup := by
  refine List.nodup_flatMap.mpr ⟨?_, ?_⟩
  · intro a _
    exact (h.filter _).map (Prod.mk_right_injective a)
  · refine h.imp ?_
    intro a a' apart pair hpair hpair'
    obtain ⟨b, -, rfl⟩ := List.mem_map.mp hpair
    obtain ⟨b', -, same⟩ := List.mem_map.mp hpair'
    exact apart (Prod.mk.inj same).1.symm

theorem derivedConstraints_once (sorted : n.Sorted) (cs : Constraints)
    (h : derivedConstraints n.report = .ok cs) : (Table.keys cs).Nodup := by
  obtain ⟨bounds, hbounds, hcs⟩ := (bind_eq_ok_iff _ _ _).mp h
  obtain ⟨keep, -, rfl⟩ := exists_filter_of_filterM _ _ _ hcs
  have pairs : bounds.map Prod.fst = _ := map_eq_of_mapM Prod.fst id _ _ _
    (fun p e he => by
      obtain ⟨b, -, he⟩ := (bind_eq_ok_iff _ _ _).mp he
      cases he
      rfl) hbounds
  have all : (Table.keys bounds).Nodup := by
    rw [Table.keys, pairs, List.map_id]
    exact pairs_nodup n.points (sorted.imp fun less => less.ne)
  exact all.sublist (List.filter_sublist.map Prod.fst)

theorem scaleAll_keys (factor : Rat) (c cs : Constraints) (h : scaleAll factor c = .ok cs) :
    Table.keys cs = Table.keys c := by
  refine map_eq_of_mapM Prod.fst Prod.fst _ c cs ?_ h
  intro e e' he
  obtain ⟨lo, -, he⟩ := (bind_eq_ok_iff _ _ _).mp he
  obtain ⟨hi, -, he⟩ := (bind_eq_ok_iff _ _ _).mp he
  cases he
  rfl

theorem Listed.add (h : n.Listed) (e : Constraint) : (n.add e).Listed :=
  ⟨insertPoint_sorted _ _ (insertPoint_sorted _ _ h.sorted),
    narrow_keys_nodup _ _ _ (narrow_keys_nodup _ _ _ h.once)⟩

theorem Change.listed {m : Network} (w : n.WellFormed) (h : n.Listed) (step : Change n m) :
    m.Listed := by
  refine ⟨step.sorted w h.sorted, ?_⟩
  cases step with
  | point p => exact h.once
  | bound a b bound => exact (h.add ⟨a, b, bound⟩).once
  | metadata id data => exact h.once
  | erase m a b hm =>
    obtain ⟨_, -, rfl⟩ := recheck_eq_ok_iff.mp hm
    exact erase_once _ _ (erase_once _ _ h.once)
  | propagate m hm =>
    obtain ⟨-, ⟨-, cs, hcs, rfl⟩ | ⟨-, rfl⟩⟩ := (propagate_eq_ok_iff w).mp hm
    · exact derivedConstraints_once h.sorted cs hcs
    · exact h.once
  | rescale m factor cs unit detail scaled hm =>
    obtain ⟨_, -, rfl⟩ := recheck_eq_ok_iff.mp hm
    exact (scaleAll_keys factor _ cs scaled).symm ▸ h.once

theorem Reachable.listed (n : Network) (r : n.Reachable) : n.Listed :=
  (r.invariant Listed (fun _ _ _ _ => ⟨.nil, .nil⟩) fun _ _ w h step => step.listed w h).2

/-! ### One constraint -/

theorem mem_points_add (e : Constraint) (p : String) :
    p ∈ (n.add e).points ↔ p ∈ n.points ∨ p = e.first ∨ p = e.second := by
  have union : p ∈ (n.add e).points ↔ p = e.second ∨ p = e.first ∨ p ∈ n.points := by
    simp only [add, addBound, mem_insertPoint]
  rw [union]
  tauto

/-- What is stored after a constraint is what was stored, met with the readings. -/
theorem get?_add (e : Constraint) (u v : String) :
    (n.add e).get? u v = metAll (n.get? u v) (e.readings u v) := by
  obtain ⟨a, b, bound⟩ := e
  have twice : (n.add ⟨a, b, bound⟩).get? u v =
      if (b, a) = (u, v) then
        met (if (a, b) = (b, a) then met (n.get? a b) bound else n.get? b a) bound.negate
      else if (a, b) = (u, v) then met (n.get? a b) bound else n.get? u v := by
    simp only [add, get?, addBound, find?_narrow, met]
  rw [twice, Constraint.readings]
  by_cases reverse : (b, a) = (u, v)
  · cases reverse
    rw [if_pos rfl, if_pos rfl]
    split_ifs with loop
    · cases loop
      rfl
    · rfl
  · rw [if_neg reverse, if_neg reverse, List.append_nil]
    split_ifs with forward
    · cases forward
      rfl
    · rfl

/-- After a constraint both bounds on its pair are in order, and a point is not kept from
itself. -/
structure Settled (n : Network) (e : Constraint) : Prop where
  forward : Uncrossed (n.get? e.first e.second)
  reverse : Uncrossed (n.get? e.second e.first)
  still : e.first = e.second → e.bound.contains (.int 0) = true

theorem add_consistent_iff (e : Constraint) (he : e.bound.Usable) :
    (n.add e).consistent = true ↔ n.consistent = true ∧ (n.add e).Settled e := by
  obtain ⟨a, b, bound⟩ := e
  have back : bound.negate.crossed = false :=
    (he.integral.crossed_negate bound).trans he.ordered
  have forward := narrow_kept_iff (a, b) bound n.constraints he.ordered
  have reverse := narrow_kept_iff (b, a) bound.negate (n.constraints.narrow (a, b) bound).1 back
  have stored : (n.add ⟨a, b, bound⟩).get? b a =
      met ((n.constraints.narrow (a, b) bound).1.find? samePair (b, a)) bound.negate := by
    simp only [add, get?, addBound, find?_narrow, met, if_true]
  have flag : (n.add ⟨a, b, bound⟩).consistent = true ↔ n.consistent = true ∧
      Uncrossed (met (n.get? a b) bound) ∧ Uncrossed ((n.add ⟨a, b, bound⟩).get? b a) ∧
      (a = b → bound.contains (.int 0) = true) := by
    rw [stored, get?, ← forward, ← reverse]
    simp only [add, addBound, Bool.and_eq_true, Bool.or_eq_true, bne_iff_ne, and_assoc, ne_eq,
      imp_iff_not_or]
  rw [flag]
  -- On a loop the reverse bound is the one that is stored, and the forward one lies before it.
  have both : Uncrossed ((n.add ⟨a, b, bound⟩).get? b a) →
      (Uncrossed (met (n.get? a b) bound) ↔ Uncrossed ((n.add ⟨a, b, bound⟩).get? a b)) := by
    intro ordered
    by_cases loop : a = b
    · subst loop
      refine iff_of_true ?_ ordered
      rw [get?_add, Constraint.readings, if_pos rfl, if_pos rfl, metAll_append] at ordered
      exact ordered.of_metAll
    · have apart : (b, a) ≠ (a, b) := fun h => loop (Prod.mk.inj h).2
      rw [get?_add, Constraint.readings, if_pos rfl, if_neg apart, List.append_nil]
      rfl
  constructor
  · rintro ⟨before, first, second, still⟩
    exact ⟨before, (both second).mp first, second, still⟩
  · rintro ⟨before, first, second, still⟩
    exact ⟨before, (both second).mpr first, second, still⟩

theorem addConstraint_request (n : Network) (e : Constraint) (h : e.bound.Usable) :
    n.addConstraint e.first e.second (.num e.bound.lo) (.num e.bound.hi) = .ok (n.add e) := by
  have accepted := (ofValues_eq_ok_iff e.bound e.bound h.integral).mpr ⟨h, rfl⟩
  rw [addConstraint, accepted, ok_bind]
  rfl

/-! ### All constraints of a batch -/

def addAll (n : Network) (es : List Constraint) : Network := es.foldl add n

theorem addAll_cons (e : Constraint) (es : List Constraint) :
    n.addAll (e :: es) = (n.add e).addAll es := rfl

theorem addConstraints_requests (n : Network) (es : List Constraint)
    (h : ∀ e ∈ es, e.bound.Usable) :
    n.addConstraints (es.map Constraint.request) = .ok (n.addAll es) := by
  induction es generalizing n with
  | nil => rfl
  | cons e es ih =>
    obtain ⟨he, hes⟩ := List.forall_mem_cons.mp h
    have first := n.addConstraint_request e he
    unfold addConstraints at ih ⊢
    rw [List.map_cons, List.foldlM_cons]
    simp only [Constraint.request] at first ⊢
    rw [first, ok_bind]
    exact ih (n.add e) hes

theorem mem_points_addAll (es : List Constraint) (p : String) :
    p ∈ (n.addAll es).points ↔ p ∈ n.points ∨ ∃ e ∈ es, p = e.first ∨ p = e.second := by
  induction es generalizing n with
  | nil => simp [addAll]
  | cons e es ih =>
    rw [addAll_cons, ih, mem_points_add, List.exists_mem_cons_iff, or_assoc]

theorem Listed.addAll (h : n.Listed) (es : List Constraint) : (n.addAll es).Listed := by
  induction es generalizing n with
  | nil => exact h
  | cons e es ih => exact ih (h.add e)

theorem get?_addAll (es : List Constraint) (u v : String) :
    (n.addAll es).get? u v = metAll (n.get? u v) (readings es u v) := by
  induction es generalizing n with
  | nil => rfl
  | cons e es ih =>
    rw [addAll_cons, ih, get?_add, ← metAll_append]
    rfl

/-- The network but for its points, its constraints and its flag. -/
theorem addAll_rest (es : List Constraint) : n.addAll es = { n with
    points := (n.addAll es).points
    constraints := (n.addAll es).constraints
    consistent := (n.addAll es).consistent } := by
  induction es generalizing n with
  | nil => rfl
  | cons e es ih => exact ih

/-- The flag stays when the network that results settles all constraints of the batch. -/
theorem addAll_consistent_iff (es : List Constraint) (h : ∀ e ∈ es, e.bound.Usable) :
    (n.addAll es).consistent = true ↔
      n.consistent = true ∧ ∀ e ∈ es, (n.addAll es).Settled e := by
  induction es generalizing n with
  | nil => simp [addAll]
  | cons e es ih =>
    obtain ⟨he, hes⟩ := List.forall_mem_cons.mp h
    rw [addAll_cons, ih hes, add_consistent_iff e he, List.forall_mem_cons, and_assoc]
    refine and_congr_right fun _ => and_congr_left fun later => ?_
    -- A bound that was in order before the rest of the batch is in order after it: it has not
    -- been read again, or the constraint that reads it is settled.
    have same : ∀ u v, Uncrossed ((n.add e).get? u v) ↔
        Uncrossed (((n.add e).addAll es).get? u v) := by
      intro u v
      constructor
      · intro before
        by_cases idle : readings es u v = []
        · rwa [get?_addAll, idle]
        · obtain ⟨b, hb⟩ := List.exists_mem_of_ne_nil _ idle
          obtain ⟨e', he', hb⟩ := List.mem_flatMap.mp hb
          have settled := later e' he'
          rcases e'.pair_of_readings u v (List.ne_nil_of_mem hb) with pair | pair
          · cases pair
            exact settled.forward
          · cases pair
            exact settled.reverse
      · intro after
        rw [get?_addAll] at after
        exact after.of_metAll
    constructor
    · exact fun h => ⟨(same _ _).mp h.forward, (same _ _).mp h.reverse, h.still⟩
    · exact fun h => ⟨(same _ _).mpr h.forward, (same _ _).mpr h.reverse, h.still⟩

/-! ### Batches of the same constraints -/

section Same

variable {es es' : List Constraint} (same : ∀ e, e ∈ es' ↔ e ∈ es)
  (usable : ∀ e ∈ es, e.bound.Usable)
include same usable

theorem get?_addAll_eq (u v : String) : (n.addAll es').get? u v = (n.addAll es).get? u v := by
  have integral := readings_integral es (fun e he => (usable e he).integral) u v
  rw [get?_addAll, get?_addAll]
  exact (met_absorbs _ integral).foldl_eq (mem_readings_congr same u v) _

theorem addAll_consistent_eq : (n.addAll es').consistent = (n.addAll es).consistent := by
  have stored := get?_addAll_eq (n := n) same usable
  have settled : ∀ e, (n.addAll es').Settled e ↔ (n.addAll es).Settled e := by
    intro e
    constructor
    · exact fun h => ⟨stored _ _ ▸ h.forward, stored _ _ ▸ h.reverse, h.still⟩
    · exact fun h => ⟨stored _ _ ▸ h.forward, stored _ _ ▸ h.reverse, h.still⟩
  rw [Bool.eq_iff_iff, addAll_consistent_iff es usable,
    addAll_consistent_iff es' fun e he => usable e ((same e).mp he)]
  simp only [settled, same]

omit usable in
theorem Listed.addAll_points_eq (h : n.Listed) : (n.addAll es').points = (n.addAll es).points := by
  refine List.Pairwise.eq_of_mem_iff (h.addAll es').sorted (h.addAll es).sorted ?_
  intro p
  simp only [mem_points_addAll, same]

theorem Listed.addAll_constraints_perm (h : n.Listed) :
    (n.addAll es').constraints.Perm (n.addAll es).constraints :=
  perm_of_find?_eq _ _ (h.addAll es').once (h.addAll es).once
    fun pair => get?_addAll_eq same usable pair.1 pair.2

/-- Only the order in which the constraints have come to be stored may differ. -/
theorem Listed.addAll_eq (h : n.Listed) : n.addAll es' =
    { n.addAll es with constraints := (n.addAll es').constraints } := by
  rw [addAll_rest es', addAll_rest es, h.addAll_points_eq same, addAll_consistent_eq same usable]

end Same

/-! ### Equality of networks -/

theorem same_of_stored (h : n.same n = true) (u v : String) (b : Bound)
    (hb : n.get? u v = some b) : b.same b = true := by
  simp only [same, sameTable, Bool.and_eq_true, List.all_eq_true] at h
  have found := h.1.1.1.1.1.1.2.2 ((u, v), b) (mem_of_find? (u, v) b n.constraints hb)
  rwa [show n.constraints.find? samePair (u, v) = some b from hb] at found

/-- Batches of the same constraints make equal networks. -/
theorem Listed.addAll_same {es es' : List Constraint} (h : n.Listed)
    (members : ∀ e, e ∈ es' ↔ e ∈ es) (usable : ∀ e ∈ es, e.bound.Usable)
    (self : n.same n = true) : (n.addAll es').same (n.addAll es) = true := by
  have perm := h.addAll_constraints_perm members usable
  have table : sameTable samePair Bound.same (n.addAll es').constraints
      (n.addAll es).constraints = true := by
    apply sameTable_of_perm perm (h.addAll es).once
    rintro ⟨⟨u, v⟩, b⟩ hb
    have stored : (n.addAll es').get? u v = some b :=
      (find?_eq_some_iff_of_nodup _ (h.addAll es').once (u, v) b).mpr hb
    rw [get?_addAll] at stored
    apply (metAll_tightest _ _ _ stored).same
    intro x hx
    rcases List.mem_append.mp hx with old | read
    · exact same_of_stored self u v x (Option.mem_toList.mp old)
    · refine (readings_integral es' (fun e he => ?_) u v x read).same_self
      exact (usable e ((members e).mp he)).integral
  have data : sameTable sameText (sameTable sameText Value.alike) (n.addAll es).metadata
      (n.addAll es).metadata = true := by
    rw [n.addAll_rest es]
    simp only [same, Bool.and_eq_true] at self
    exact self.1.1.2
  have rest := h.addAll_eq members usable
  generalize (n.addAll es').constraints = stored at rest table
  rw [rest]
  simp [same, table, data]

end Network

/-! ### Refused entries -/

/-- The numbers of an entry are read without a fault. -/
def Readable (x : Request) : Prop :=
  ∃ answer, Bound.ofValues? x.2.2.1 x.2.2.2 = .ok answer

/-- The values of an entry form no bound. -/
def Refused (x : Request) : Prop :=
  Bound.ofValues? x.2.2.1 x.2.2.2 = .ok none

theorem Refused.stops {x : Request} (h : Refused x) (n : Network) :
    n.addConstraint x.1 x.2.1 x.2.2.1 x.2.2.2 =
      .error (.invalidBounds (.tuple [x.2.2.1, x.2.2.2])) := by
  rw [Network.addConstraint, Bound.ofValues, h]
  rfl

/-- An entry that is read without a fault and not refused is added. -/
theorem Readable.added {x : Request} (h : Readable x)
    (accepted : ¬ Refused x) (n : Network) :
    ∃ m, n.addConstraint x.1 x.2.1 x.2.2.1 x.2.2.2 = .ok m := by
  obtain ⟨answer, ha⟩ := h
  cases answer with
  | none => exact absurd ha accepted
  | some b =>
    rw [Network.addConstraint, Bound.ofValues, ha]
    exact ⟨_, rfl⟩

/-- A batch ends at the first entry that is refused. -/
theorem Network.addConstraints_refused (n : Network) (xs : List (Request))
    (readable : ∀ x ∈ xs, Readable x) (refused : ∃ x ∈ xs, Refused x) :
    ∃ x ∈ xs, Refused x ∧
      n.addConstraints xs = .error (.invalidBounds (.tuple [x.2.2.1, x.2.2.2])) := by
  induction xs generalizing n with
  | nil => simp at refused
  | cons x xs ih =>
    obtain ⟨first, rest⟩ := List.forall_mem_cons.mp readable
    unfold addConstraints at ih ⊢
    rw [List.foldlM_cons]
    by_cases here : Refused x
    · exact ⟨x, List.mem_cons_self, here, by rw [here.stops n, error_bind]⟩
    · obtain ⟨m, hm⟩ := first.added here n
      have later := ((List.exists_mem_cons_iff ..).mp refused).resolve_left here
      obtain ⟨x', hx', found, ends⟩ := ih m rest later
      exact ⟨x', List.mem_cons_of_mem x hx', found, by rw [hm, ok_bind, ends]⟩

/-! ## A harbour

From the lock to the pier it takes two and a half at least, and then two at most. -/

namespace Harbour

def network : Network :=
  { Network.standard with
    points := ["lock", "pier"]
    constraints := [(("lock", "pier"), ⟨.float (.finite (5 / 2)), .posInf⟩),
      (("pier", "lock"), ⟨.negInf, .float (.finite (-5 / 2))⟩)] }

def passage : Constraint := ⟨"lock", "pier", ⟨.int 0, .int 9⟩⟩

def tide : Constraint := ⟨"pier", "lock", ⟨.int (-2), .posInf⟩⟩

def mooring : Constraint := ⟨"quay", "quay", ⟨.int 0, .int 3⟩⟩

def crossing : Request :=
  ("lock", "pier", .num (.int 5), .num (.int 3))

def voyage : Request :=
  ("lock", "pier", .num (.int 0), .num (.int (2 ^ 1024)))

theorem network_listed : network.Listed :=
  ⟨by unfold Network.Sorted; decide +kernel, by decide +kernel⟩

theorem usable : ∀ e ∈ [passage, tide, mooring], e.bound.Usable := by
  simp only [List.forall_mem_cons, List.not_mem_nil, false_implies, implies_true, and_true]
  exact ⟨⟨⟨(0 : ℤ), (9 : ℤ), rfl⟩, rfl, by decide +kernel⟩,
    ⟨⟨(2 : ℤ), ⊤, rfl⟩, rfl, by decide +kernel⟩, ⟨⟨(0 : ℤ), (3 : ℤ), rfl⟩, rfl, by decide +kernel⟩⟩

theorem crossing_refused : Refused crossing :=
  toOption_eq_some_iff.mp (by decide +kernel)

theorem passage_read :
    Bound.ofValues? (.num (.int 0)) (.num (.int 9)) = .ok (some passage.bound) :=
  toOption_eq_some_iff.mp (by decide +kernel)

end Harbour

/-! ## The order of a batch -/

/-- A network with all constraints of a batch: each stored bound is the tightest of what was stored
and of what the batch says on its pair, and the flag stays when all constraints are settled. -/
structure Network.Batched (n : Network) (es : List Constraint) (m : Network) : Prop where
  points : ∀ p, p ∈ m.points ↔ p ∈ n.points ∨ ∃ e ∈ es, p = e.first ∨ p = e.second
  untouched : ∀ u v, readings es u v = [] → m.get? u v = n.get? u v
  tightest : ∀ u v, readings es u v ≠ [] →
    ∃ b, m.get? u v = some b ∧ b.Tightest ((n.get? u v).toList ++ readings es u v)
  flag : m.consistent = true ↔ n.consistent = true ∧ ∀ e ∈ es, m.Settled e

theorem Network.addAll_batched (n : Network) (es : List Constraint)
    (usable : ∀ e ∈ es, e.bound.Usable) : n.Batched es (n.addAll es) := by
  refine ⟨mem_points_addAll es, ?_, ?_, addAll_consistent_iff es usable⟩
  · intro u v idle
    rw [get?_addAll, idle]
    rfl
  · intro u v some
    obtain ⟨b, hb⟩ := Option.ne_none_iff_exists'.mp fun none =>
      some ((metAll_eq_none_iff (n.get? u v) (readings es u v)).mp none).2
    exact ⟨b, (get?_addAll es u v).trans hb, metAll_tightest _ _ b hb⟩

/-- A batch of integer or infinite bounds makes the same network in any order and with any
repetitions. When no number is too large and an entry is refused, the batch is in any order. -/
theorem Network.addConstraints_unordered (n : Network) (h : n.Listed) :
    (∀ es : List Constraint, (∀ e ∈ es, e.bound.Usable) →
      ∃ m, n.addConstraints (es.map Constraint.request) = .ok m ∧ n.Batched es m ∧
        ∀ es' : List Constraint, (∀ e, e ∈ es' ↔ e ∈ es) →
          ∃ m', n.addConstraints (es'.map Constraint.request) = .ok m' ∧
            m' = { m with constraints := m'.constraints } ∧
            m'.constraints.Perm m.constraints ∧ (n.same n = true → m'.same m = true)) ∧
      ∀ xs : List Request, (∀ x ∈ xs, Readable x) → (∃ x ∈ xs, Refused x) →
        ∀ xs' : List Request, (∀ x, x ∈ xs' ↔ x ∈ xs) →
          ∃ x ∈ xs, Refused x ∧
            n.addConstraints xs' = .error (.invalidBounds (.tuple [x.2.2.1, x.2.2.2])) := by
  constructor
  · intro es usable
    refine ⟨n.addAll es, n.addConstraints_requests es usable, n.addAll_batched es usable, ?_⟩
    intro es' same
    have usable' : ∀ e ∈ es', e.bound.Usable := fun e he => usable e ((same e).mp he)
    exact ⟨n.addAll es', n.addConstraints_requests es' usable', h.addAll_eq same usable,
      h.addAll_constraints_perm same usable, h.addAll_same same usable⟩
  · intro xs readable refused xs' same
    have readable' : ∀ x ∈ xs', Readable x := fun x hx => readable x ((same x).mp hx)
    obtain ⟨x, hx, wrong⟩ := refused
    obtain ⟨x', hx', wrong', ends⟩ :=
      n.addConstraints_refused xs' readable' ⟨x, (same x).mpr hx, wrong⟩
    exact ⟨x', (same x').mp hx', wrong', ends⟩

/-- Backwards and with the tide twice, the bounds of the passage have crossed all the same, and a
crossed entry at the end is what the batch is refused for. -/
theorem Harbour.backwards :
    ∃ m m', Harbour.network.addConstraints
          ([Harbour.passage, Harbour.tide, Harbour.mooring].map Constraint.request) = .ok m ∧
      Harbour.network.addConstraints ([Harbour.mooring, Harbour.tide, Harbour.passage,
          Harbour.tide].map Constraint.request) = .ok m' ∧
      m'.same m = true ∧ m.consistent = false ∧
      m.get? "lock" "pier" = some ⟨.float (.finite (5 / 2)), .int 2⟩ ∧
      m.get? "quay" "quay" = some ⟨.int 0, .int 0⟩ ∧
      Harbour.network.addConstraints [Harbour.passage.request, Harbour.crossing] =
        .error (.invalidBounds (.tuple [.num (.int 5), .num (.int 3)])) := by
  obtain ⟨whole, refused⟩ := Harbour.network.addConstraints_unordered Harbour.network_listed
  obtain ⟨m, hm, -, anew⟩ := whole _ Harbour.usable
  obtain ⟨m', hm', -, -, same⟩ := anew
    [Harbour.mooring, Harbour.tide, Harbour.passage, Harbour.tide] (by simp; tauto)
  have made : m = Harbour.network.addAll [Harbour.passage, Harbour.tide, Harbour.mooring] :=
    Except.ok.inj (hm.symm.trans (Harbour.network.addConstraints_requests _ Harbour.usable))
  have readable : ∀ x ∈ [Harbour.crossing, Harbour.passage.request], Readable x := by
    simp only [List.forall_mem_cons, List.not_mem_nil, false_implies, implies_true, and_true]
    exact ⟨⟨none, Harbour.crossing_refused⟩, ⟨_, Harbour.passage_read⟩⟩
  obtain ⟨x, hx, wrong, ends⟩ := refused _ readable
    ⟨Harbour.crossing, List.mem_cons_self, Harbour.crossing_refused⟩
    [Harbour.passage.request, Harbour.crossing] (by simp; tauto)
  refine ⟨m, m', hm, hm', same (by decide +kernel), ?_, ?_, ?_, ?_⟩
  · rw [made]
    decide +kernel
  · rw [made]
    decide +kernel
  · rw [made]
    decide +kernel
  · rcases List.mem_cons.mp hx with rfl | hx
    · exact ends
    · rw [List.mem_singleton.mp hx] at wrong
      cases wrong.symm.trans Harbour.passage_read

/-- An entry that would be refused is not reached behind a number that is too large. -/
theorem Harbour.voyage_first :
    Refused Harbour.crossing ∧
      Harbour.network.addConstraints [Harbour.crossing, Harbour.voyage] =
        .error (.invalidBounds (.tuple [.num (.int 5), .num (.int 3)])) ∧
      Harbour.network.addConstraints [Harbour.voyage, Harbour.crossing] = .error .tooLarge := by
  refine ⟨Harbour.crossing_refused, ?_, stopsTooLarge_iff.mp (by decide +kernel)⟩
  rw [Network.addConstraints, List.foldlM_cons, Harbour.crossing_refused.stops, error_bind]
  rfl

end Chronoplan
