import Chronoplan.Proofs.Network.Readings

/-!
# Booked intervals

Booking an interval from a given time on leaves every other interval where it was. The interval of
that name begins at the given time or later, and a solution begins it exactly then.
-/

set_option autoImplicit false

namespace Chronoplan
namespace Bound

/-- The bound that fixes a time. -/
def exactly (x : Number) : Bound := ⟨x, x⟩

theorem exactly_integral (s : ℤ) : (exactly (.int s)).Integral :=
  ⟨((-s : ℤ) : WithTop ℤ), (s : WithTop ℤ), by
    rw [ofDistances, ← Number.int_eq_neg_ofDistance]
    rfl⟩

theorem exactly_contains (s d : ℤ) : (exactly (.int s)).contains (.int d) = true ↔ d = s := by
  simp only [exactly, contains, Number.le_int, Bool.and_eq_true, decide_eq_true_eq]
  omega

theorem exactly_least (s : ℤ) : (exactly (.int s)).least = s := rfl

/-- Only one number lies in an exact bound. -/
theorem ofValues_exactly (x : Number) (b : Bound) (h : ofValues (.num x) (.num x) = .ok b) :
    b = exactly x := by
  obtain ⟨hlo, hhi, -, -⟩ := ofValues_eq_ok _ _ b h
  cases b
  cases hlo
  cases hhi
  rfl

end Bound

namespace Network

/-- The network in which an interval is booked from a given time on. -/
def anchored (n : Network) (id : String) (duration : Bound) (x : Number) (data : Metadata) :
    Network :=
  ((((n.addPoint (startPoint id)).addPoint (endPoint id)).addBound (startPoint id) (endPoint id)
    duration).addBound originPoint (startPoint id) (.exactly x)).withMetadata id data

/-- An interval with a given duration and start is booked as such. -/
theorem addInterval_anchored (n m : Network) (id : String) (duration v : Value) (x : Number)
    (h : n.addInterval {
      id := id
      duration := duration
      start := .num x
      finish := .null
      metadata := .dict [(.str "command", v)] } = .ok m) :
    ∃ lo hi bound, n.durationPair duration = .ok (lo, hi) ∧ Bound.ofValues lo hi = .ok bound ∧
      m = n.anchored id bound x [("command", v)] := by
  obtain ⟨start, hstart, h⟩ := (bind_eq_ok_iff _ _ _).mp h
  cases hstart
  obtain ⟨finish, hfinish, h⟩ := (bind_eq_ok_iff _ _ _).mp h
  cases hfinish
  obtain ⟨⟨lo, hi⟩, hdur, h⟩ := (bind_eq_ok_iff _ _ _).mp h
  obtain ⟨n₁, h₁, h⟩ := (bind_eq_ok_iff _ _ _).mp h
  obtain ⟨n₂, h₂, h⟩ := (bind_eq_ok_iff _ _ _).mp h
  obtain ⟨n₃, h₃, h⟩ := (bind_eq_ok_iff _ _ _).mp h
  cases h₃
  obtain ⟨bound, hb, h₁⟩ := (bind_eq_ok_iff _ _ _).mp h₁
  obtain ⟨fixed, hfixed, h₂⟩ := (bind_eq_ok_iff _ _ _).mp h₂
  cases h₁
  cases h₂
  cases h
  have hexact := Bound.ofValues_exactly x fixed hfixed
  rcases specDuration_cases _ _ _ lo hi hdur with ⟨-, absent, -⟩ | hpair
  · exact absurd rfl absent
  · exact ⟨lo, hi, bound, hpair, hb, by rw [hexact]; rfl⟩

theorem mem_points_addBound (n : Network) (a b p : String) (bound : Bound) :
    p ∈ (n.addBound a b bound).points ↔ p ∈ n.points ∨ p = a ∨ p = b := by
  simp only [addBound, mem_insertPoint]
  tauto

theorem mem_points_anchored (n : Network) (id : String) (duration : Bound) (x : Number)
    (data : Metadata) (p : String) : p ∈ (n.anchored id duration x data).points ↔
      p ∈ n.points ∨ p = startPoint id ∨ p = endPoint id ∨ p = originPoint := by
  refine (mem_points_addBound _ originPoint (startPoint id) p (.exactly x)).trans ?_
  simp only [mem_points_addBound, addPoint, mem_insertPoint]
  tauto

/-- What every way of booking an interval does to the least times that are stored. -/
structure Booked (n m : Network) (id : String) (s lo : ℤ) : Prop where
  wellFormed : m.WellFormed
  points : ∀ p, p ∈ m.points ↔ p ∈ n.points ∨ p = startPoint id ∨ p = endPoint id ∨ p = originPoint
  start : ∀ other, m.least originPoint (startPoint other) =
    if id = other then max (n.least originPoint (startPoint other)) s
    else n.least originPoint (startPoint other)
  finish : ∀ other, m.least originPoint (endPoint other) = n.least originPoint (endPoint other)
  length : ∀ other, m.least (startPoint other) (endPoint other) =
    if id = other then max (n.least (startPoint other) (endPoint other)) lo
    else n.least (startPoint other) (endPoint other)

@[simp] theorem least_addPoint (n : Network) (p a b : String) :
    (n.addPoint p).least a b = n.least a b := rfl

@[simp] theorem least_withMetadata (n : Network) (id a b : String) (data : Metadata) :
    (n.withMetadata id data).least a b = n.least a b := rfl

theorem anchored_booked (n : Network) (w : n.WellFormed) (id : String) (duration : Bound)
    (hduration : duration.Integral) (s lo : ℤ) (hlo : duration.least = lo) (data : Metadata) :
    Booked n (n.anchored id duration (.int s) data) id s lo := by
  have w' := addPoint_wellFormed (addPoint_wellFormed w (startPoint id)) (endPoint id)
  have w₁ := addBound_wellFormed w' (startPoint id) (endPoint id) duration hduration
  have w₂ := addBound_wellFormed w₁ originPoint (startPoint id) _ (Bound.exactly_integral s)
  constructor
  · exact withMetadata_wellFormed w₂ id data
  · exact n.mem_points_anchored id duration (.int s) data
  all_goals
    intro other
    simp [anchored, least_addBound _ w₁ _ _ _ _ _ (Bound.exactly_integral s),
      least_addBound _ w' _ _ _ _ _ hduration, hlo, Bound.exactly_least]

/-- A limit on the end from the origin moves no interval if it has no finite lower number. -/
theorem Booked.limit_end {n m : Network} {id : String} {s lo : ℤ} (h : Booked n m id s lo)
    (bound : Bound) (hbound : bound.Integral) (hleast : bound.least = ⊥) :
    Booked n (m.addBound originPoint (endPoint id) bound) id s lo := by
  constructor
  · exact addBound_wellFormed h.wellFormed _ _ bound hbound
  · intro p
    rw [mem_points_addBound, h.points]
    tauto
  all_goals
    intro other
    simp [least_addBound _ h.wellFormed _ _ _ _ _ hbound, hleast, h.start, h.finish, h.length]

/-- A limit on the start from the origin moves no interval if the start lies beyond it. -/
theorem Booked.limit_start {n m : Network} {id : String} {s lo : ℤ} (h : Booked n m id s lo)
    (bound : Bound) (hbound : bound.Integral) (hleast : bound.least ≤ s) :
    Booked n (m.addBound originPoint (startPoint id) bound) id s lo := by
  constructor
  · exact addBound_wellFormed h.wellFormed _ _ bound hbound
  · intro p
    rw [mem_points_addBound, h.points]
    tauto
  · intro other
    rw [least_addBound _ h.wellFormed _ _ _ _ _ hbound (by simp), h.start]
    by_cases same : id = other
    · simp [same, hleast]
    · simp [same]
  all_goals
    intro other
    simp [least_addBound _ h.wellFormed _ _ _ _ _ hbound, h.finish, h.length]

section Booked

variable {n m : Network} {id : String} {s lo : ℤ}

theorem Booked.beginsAt_le (h : Booked n m id s lo) : m.beginsAt id ≤ max (n.beginsAt id) s := by
  rw [beginsAt, beginsAt, h.start, if_pos rfl]
  cases n.least originPoint (startPoint id) with
  | bot => simp
  | coe k =>
    rw [← WithBot.coe_max]
    exact le_rfl

theorem Booked.beginsAt_ge (h : Booked n m id s lo) (hs : 0 ≤ s) :
    n.beginsAt id ≤ m.beginsAt id := by
  rw [beginsAt, beginsAt, h.start, if_pos rfl]
  cases n.least originPoint (startPoint id) with
  | bot => simpa using hs
  | coe k =>
    rw [← WithBot.coe_max]
    exact le_max_left k s

theorem Booked.endsAt_ge (h : Booked n m id s lo) (hs : 0 ≤ s) (hlo : 0 ≤ lo) :
    n.endsAt id ≤ m.endsAt id := by
  have begins := h.beginsAt_ge hs
  rw [endsAt, endsAt, h.finish, h.length, if_pos rfl]
  cases n.least originPoint (endPoint id) with
  | coe k => exact le_rfl
  | bot =>
    refine add_le_add begins ?_
    cases n.least (startPoint id) (endPoint id) with
    | bot => simpa using hlo
    | coe k =>
      rw [← WithBot.coe_max]
      exact le_max_left k lo

theorem Booked.beginsAt_other (h : Booked n m id s lo) (other : String) (hother : id ≠ other) :
    m.beginsAt other = n.beginsAt other := by
  rw [beginsAt, beginsAt, h.start, if_neg hother]

theorem Booked.endsAt_other (h : Booked n m id s lo) (other : String) (hother : id ≠ other) :
    m.endsAt other = n.endsAt other := by
  rw [endsAt, endsAt, h.finish, h.length, if_neg hother, h.beginsAt_other other hother]

end Booked

/-- An interval of a network is over by some time, or a later network still has it at the least
where it was. -/
def Stays (base n : Network) (id : String) (time : ℤ) : Prop :=
  base.endsAt id ≤ time ∨ n.beginsAt id ≤ base.beginsAt id ∧ base.endsAt id ≤ n.endsAt id

theorem Stays.clear {base n : Network} {id : String} {time s f : ℤ} (h : Stays base n id time)
    (hs : time ≤ s) (hclear : n.Clear id s f) : base.Clear id s f := by
  rcases h with past | ⟨begins, ends⟩
  · exact .inr (past.trans hs)
  · rcases hclear with before | after
    · exact .inl (before.trans begins)
    · exact .inr (ends.trans after)

/-- Whatever is booked in a span that an interval keeps clear of, the interval stays. -/
theorem Stays.booked {base n m : Network} {id other : String} {time s f lo : ℤ}
    (h : Stays base n other time) (hb : Booked n m id s lo) (hlo : 0 ≤ lo) (hs : 0 ≤ s)
    (htime : time ≤ f) (hf : s ≤ f) (hclear : base.Clear other s f) : Stays base m other f := by
  rcases h with past | ⟨begins, ends⟩
  · exact .inl (past.trans htime)
  · by_cases same : id = other
    · subst same
      rcases hclear with before | after
      · exact .inr ⟨hb.beginsAt_le.trans (max_le begins (hf.trans before)),
          ends.trans (hb.endsAt_ge hs hlo)⟩
      · exact .inl (after.trans hf)
    · right
      rw [hb.beginsAt_other other same, hb.endsAt_other other same]
      exact ⟨begins, ends⟩

/-! ### Limits from the origin -/

/-- The network with a limit on the time of a point if one is given. -/
def limited (n : Network) (p : String) (given : Option ℤ) (fit : ℤ → Bound) : Network :=
  given.elim n fun x => n.addBound originPoint p (fit x)

section Limited

variable (n : Network) (w : n.WellFormed)
include w

theorem limited_wellFormed (p : String) (given : Option ℤ) (fit : ℤ → Bound)
    (integral : ∀ x, (fit x).Integral) : (n.limited p given fit).WellFormed := by
  cases given with
  | none => exact w
  | some x => exact addBound_wellFormed w originPoint p (fit x) (integral x)

theorem solves_limited (p : String) (given : Option ℤ) (fit : ℤ → Bound)
    (integral : ∀ x, (fit x).Integral) (t : String → ℤ) :
    (n.limited p given fit).Solves t ↔
      n.Solves t ∧ ∀ x ∈ given, (fit x).contains (.int (t p - t originPoint)) = true := by
  cases given with
  | none => simp [limited]
  | some x => simpa [limited] using n.solves_addBound w originPoint p (fit x) (integral x) t

end Limited

/-! ### Solutions with a booked interval -/

/-- Times with an interval that begins at a time from the origin and lasts as long as it is told. -/
def spanning (t : String → ℤ) (id : String) (s d : ℤ) : String → ℤ := Function.update
  (Function.update t (startPoint id) (t originPoint + s)) (endPoint id) (t originPoint + s + d)

section Spanning

variable (t : String → ℤ) (id : String) (s d : ℤ)

@[simp] theorem spanning_start : spanning t id s d (startPoint id) = t originPoint + s := by
  simp [spanning]

@[simp] theorem spanning_end : spanning t id s d (endPoint id) = t originPoint + s + d := by
  simp [spanning]

@[simp] theorem spanning_origin : spanning t id s d originPoint = t originPoint := by
  simp [spanning]

end Spanning

section Solutions

variable (n : Network) (w : n.WellFormed) (id : String) (duration : Bound)
  (hduration : duration.Integral) (s : ℤ) (data : Metadata)
include w hduration

theorem solves_anchored (t : String → ℤ) :
    (n.anchored id duration (.int s) data).Solves t ↔ n.Solves t ∧
      duration.contains (.int (t (endPoint id) - t (startPoint id))) = true ∧
      t (startPoint id) - t originPoint = s := by
  have w' := addPoint_wellFormed (addPoint_wellFormed w (startPoint id)) (endPoint id)
  have w₁ := addBound_wellFormed w' (startPoint id) (endPoint id) duration hduration
  refine (solves_addBound _ w₁ _ _ _ (Bound.exactly_integral s) t).trans ?_
  rw [solves_addBound _ w' _ _ _ hduration, Bound.exactly_contains, and_assoc]
  rfl

/-- Under a fresh name an interval can be booked at any time. -/
theorem spanning_solves (d : ℤ) (hd : duration.contains (.int d) = true)
    (hstart : startPoint id ∉ n.points) (hend : endPoint id ∉ n.points) (t : String → ℤ)
    (ht : n.Solves t) : (n.anchored id duration (.int s) data).Solves (spanning t id s d) := by
  have old : ∀ p ∈ n.points, spanning t id s d p = t p := by
    intro p hp
    have hs : p ≠ startPoint id := fun h => hstart (h ▸ hp)
    have he : p ≠ endPoint id := fun h => hend (h ▸ hp)
    simp [spanning, hs, he]
  refine (n.solves_anchored w id duration hduration s data _).mpr ⟨?_, ?_, ?_⟩
  · intro e he
    rw [old _ (w e he).first, old _ (w e he).second]
    exact ht e he
  · simpa using hd
  · simp

theorem exists_solves_anchored (d : ℤ) (hd : duration.contains (.int d) = true)
    (hstart : startPoint id ∉ n.points) (hend : endPoint id ∉ n.points)
    (h : ∃ t, n.Solves t) : ∃ t, (n.anchored id duration (.int s) data).Solves t := by
  obtain ⟨t, ht⟩ := h
  exact ⟨_, n.spanning_solves w id duration hduration s data d hd hstart hend t ht⟩

end Solutions

theorem check_consistent (n : Network) (w : n.WellFormed) (r : Report) (h : n.check = .ok r)
    (hr : r.reason = none) : n.isConsistent = .ok true ∧ ∃ t, n.Solves t := by
  have consistent : r.consistent = true := by
    unfold Report.reason at hr
    split at hr
    · assumption
    · cases hr
  have hc : n.isConsistent = .ok true := by
    rw [isConsistent, h, ok_bind, consistent]
    rfl
  exact ⟨hc, ((n.isConsistent_true_iff w).mp hc).2⟩

end Network
end Chronoplan
