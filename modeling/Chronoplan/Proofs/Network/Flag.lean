import Chronoplan.Proofs.Network.Additions

/-!
# The cheap flag

A write of a bound clears the flag when a stored bound crosses or a point is kept away from
itself; removing, propagating and rescaling take the flag from the closure. Through all changes of
a network a cleared flag means that there is no solution, and a flag that is set means that every
stored bound is in order. So the flag raises no false alarm and misses no stored conflict, while a
conflict between several bounds may be left for the closure to find.
-/

set_option autoImplicit false

namespace Chronoplan

/-- A bound in order which, between a point and itself, leaves that point where it is. -/
structure Sane (e : (String × String) × Bound) : Prop where
  order : e.2.crossed = false
  stays : e.1.1 = e.1.2 → e.2.contains (.int 0) = true

section Narrow

variable (key : String × String) (b : Bound) (c : Constraints)

/-- A bound that is met by the time between its points narrows what that time meets as well. -/
theorem kept_of_contains (hc : ∀ e ∈ c, e.2.Integral) (hb : b.Integral) (t : String → ℤ)
    (old : ∀ e ∈ c, e.2.contains (.int (t e.1.2 - t e.1.1)) = true)
    (new : b.contains (.int (t key.2 - t key.1)) = true) : (c.narrow key b).2 = true := by
  unfold Constraints.narrow
  cases hf : c.find? samePair key with
  | none => rfl
  | some b' =>
    have stored := mem_of_find? key b' c hf
    have both := (Bound.contains_meet b' b (hc _ stored) hb _).mpr ⟨old _ stored, new⟩
    simp [((hc _ stored).meet b' b hb).uncrossed _ _ both]

theorem narrow_sane (hc : ∀ e ∈ c, e.2.Integral) (hb : b.Integral) (old : ∀ e ∈ c, Sane e)
    (new : Sane (key, b)) (kept : (c.narrow key b).2 = true) :
    ∀ e ∈ (c.narrow key b).1, Sane e := by
  intro e he
  unfold Constraints.narrow at he kept
  cases hf : c.find? samePair key with
  | none =>
    rw [hf] at he
    rcases mem_insert key b c e he with before | rfl
    · exact old e before
    · exact new
  | some b' =>
    rw [hf] at he kept
    rcases mem_insert key (b'.meet b) c e he with before | rfl
    · exact old e before
    · have stored := mem_of_find? key b' c hf
      constructor
      · simpa using kept
      · intro loop
        exact (Bound.contains_meet b' b (hc _ stored) hb 0).mpr
          ⟨(old _ stored).stays loop, new.stays loop⟩

end Narrow

namespace Network

variable {n m : Network}

/-- What the flag of a network tells. -/
structure FlagSound (n : Network) : Prop where
  solvable : (∃ t, n.Solves t) → n.consistent = true
  sane : n.consistent = true → ∀ e ∈ n.constraints, Sane e

theorem Solves.sane (w : n.WellFormed) (t : String → ℤ) (h : n.Solves t) :
    ∀ e ∈ n.constraints, Sane e := by
  intro e he
  constructor
  · exact (w e he).integral.uncrossed _ _ (h e he)
  · intro loop
    have met := h e he
    rwa [loop, sub_self] at met

theorem addBound_flagSound (w : n.WellFormed) (h : n.FlagSound) (a b : String) (bound : Bound)
    (hb : bound.Integral) (order : bound.crossed = false) : (n.addBound a b bound).FlagSound := by
  have hn := hb.negate bound
  have once := n.narrowed_integral w (a, b) bound hb
  constructor
  · rintro ⟨t, ht⟩
    obtain ⟨before, met⟩ := (n.solves_addBound w a b bound hb t).mp ht
    have back : bound.negate.contains (.int (t a - t b)) = true := by
      rw [← bound.contains_negate hb, neg_sub] at met
      exact met
    have forward := kept_of_contains (a, b) bound n.constraints (fun e he => (w e he).integral) hb t
      before met
    have between := (n.solves_narrowed w a b bound hb t).mpr ⟨before, met⟩
    have reverse := kept_of_contains (b, a) bound.negate _ once hn t between back
    have loop : a = b → bound.contains (.int 0) = true := by
      rintro rfl
      rwa [sub_self] at met
    by_cases hab : a = b
    · simp [addBound, h.solvable ⟨t, before⟩, forward, reverse, loop hab]
    · simp [addBound, h.solvable ⟨t, before⟩, forward, reverse, hab]
  · intro flag
    simp only [addBound, Bool.and_eq_true, Bool.or_eq_true, bne_iff_ne] at flag
    obtain ⟨⟨⟨before, forward⟩, reverse⟩, apart⟩ := flag
    have loop : a = b → bound.contains (.int 0) = true := fun hab =>
      apart.resolve_left fun hne => hne hab
    have old := h.sane before
    have between := narrow_sane (a, b) bound n.constraints (fun e he => (w e he).integral) hb old
      ⟨order, loop⟩ forward
    have back : Sane ((b, a), bound.negate) := by
      constructor
      · exact (hb.crossed_negate bound).trans order
      · intro hba
        exact (bound.contains_negate hb 0).mpr (loop hba.symm)
    exact narrow_sane (b, a) bound.negate _ once hn between back reverse

/-- A flag that is taken from the closure is sound. -/
theorem recheck_flagSound (w : n.WellFormed) (h : n.recheck = .ok m) : m.FlagSound := by
  obtain ⟨flag, hflag, rfl⟩ := recheck_eq_ok_iff.mp h
  obtain ⟨-, rfl⟩ := (n.isConsistent_eq_ok_iff w flag).mp hflag
  have tells : n.report.consistent = true ↔ ∃ t, n.Solves t := by
    rw [n.report_consistent, n.solvable_iff w]
  constructor
  · exact tells.mpr
  · intro found
    obtain ⟨t, ht⟩ := tells.mp found
    exact Solves.sane w t ht

/-- Derived bounds leave every solution what it is. -/
theorem Solves.derived (w : n.WellFormed) (t : String → ℤ) (h : n.Solves t) (cs : Constraints)
    (hcs : derivedConstraints n.report = .ok cs) : Solves { n with constraints := cs } t := by
  intro e he
  obtain ⟨u, hu, v, hv, -, rfl, -⟩ := (mem_derivedConstraints_iff cs hcs e).mp he
  apply (Bound.contains_ofDistances _ _ _).mpr
  have closed := (n.solvable_iff w).mp ⟨t, h⟩
  exact (n.attained_iff w closed u v hu hv _).mp ⟨t, h, rfl⟩

theorem propagate_flagSound (w : n.WellFormed) (h : n.propagate = .ok m) : m.FlagSound := by
  have w' := propagate_wellFormed w h
  have tells : n.report.consistent = true ↔ ∃ t, n.Solves t := by
    rw [n.report_consistent, n.solvable_iff w]
  obtain ⟨-, ⟨found, cs, hcs, rfl⟩ | ⟨conflict, rfl⟩⟩ := (propagate_eq_ok_iff w).mp h
  · obtain ⟨t, ht⟩ := tells.mp found
    constructor
    · exact fun _ => rfl
    · exact fun _ => Solves.sane w' t (ht.derived w t cs hcs)
  · constructor
    · exact fun solved => absurd (tells.mpr solved) (by simp [conflict])
    · intro flag
      cases flag

theorem Change.flagSound (w : n.WellFormed) (h : n.FlagSound) (step : Change n m) :
    m.FlagSound := by
  cases step with
  | point p => exact ⟨h.solvable, h.sane⟩
  | bound a b bound integral order => exact addBound_flagSound w h a b bound integral order
  | metadata id data => exact ⟨h.solvable, h.sane⟩
  | erase m a b hm => exact recheck_flagSound (erase_wellFormed w a b) hm
  | propagate m hm => exact propagate_flagSound w hm
  | rescale m factor cs unit detail scaled hm =>
    exact recheck_flagSound (n := { n with constraints := cs, unit, detail })
      (scaleAll_fits w factor cs scaled) hm

theorem flagSound_empty (unit : TimeUnit) (detail : Detail) (parallel : Bool) (workers : Int) :
    (empty unit detail parallel workers).FlagSound := by
  constructor
  · exact fun _ => rfl
  · intro _ e he
    cases he

theorem Reachable.flagSound (n : Network) (r : n.Reachable) : n.FlagSound :=
  (r.invariant FlagSound flagSound_empty fun _ _ w h step => step.flagSound w h).2

end Network

/-! ## A double booking

The time of a shift is bounded twice, and the bounds have nothing in common. -/

namespace Shift

def planned : Network := Network.standard.addBound "start" "finish" ⟨.int 4, .int 8⟩

def doubled : Network := planned.addBound "finish" "start" ⟨.int (-3), .posInf⟩

def extended : Network := doubled.addPoint "handover"

theorem extended_reachable : extended.Reachable := by
  have start : Network.standard.Reachable := .empty .second .medium false 4
  have infinite : (Value.float .posInf).Integral := by
    rintro x ⟨⟩
    exact ⟨⊤, .inl rfl⟩
  have one : planned.Reachable := .write _ _ (.bound "start" "finish" (.int 4) (.int 8)) start
    ⟨.ofInt 4, .ofInt 8⟩ rfl
  have two : doubled.Reachable := .write _ _ (.bound "finish" "start" (.int (-3)) (.float .posInf))
    one ⟨.ofInt (-3), infinite⟩ rfl
  exact .write _ _ (.point "handover") two trivial rfl

theorem extended_addable : extended.Addable :=
  ((extended.isConsistent_iff_solvable extended_reachable).1).mpr ⟨false, by rfl⟩

end Shift

/-! ## What the flag tells -/

/-- In a reachable network a stored bound that crosses, or that keeps a point away from itself,
has cleared the flag, and once the flag is cleared the closure finds a conflict as well. -/
theorem Network.flag_sound (n : Network) (r : n.Reachable) :
    ((∃ u v b, n.get? u v = some b ∧
        (b.crossed = true ∨ u = v ∧ b.contains (.int 0) = false)) → n.consistent = false) ∧
      (n.consistent = false → n.Addable → n.isConsistent = .ok false) := by
  have w := r.wellFormed
  have sound := r.flagSound
  constructor
  · rintro ⟨u, v, b, hb, conflict⟩
    apply Bool.eq_false_of_not_eq_true
    intro flag
    have sane := sound.sane flag _ (mem_of_find? (u, v) b n.constraints hb)
    rcases conflict with crossed | ⟨loop, away⟩
    · rw [sane.order] at crossed
      cases crossed
    · rw [sane.stays loop] at away
      cases away
  · intro cleared addable
    apply (n.isConsistent_eq_ok_iff w false).mpr
    refine ⟨addable, ?_⟩
    symm
    apply Bool.eq_false_of_not_eq_true
    intro found
    rw [n.report_consistent, ← n.solvable_iff w] at found
    rw [sound.solvable found] at cleared
    cases cleared

/-- The crossed bound of a double booking is found by the flag and by the closure. -/
theorem Shift.conflict_found :
    Shift.extended.Reachable ∧ Shift.extended.Addable ∧
      Shift.extended.get? "start" "finish" = some ⟨.int 4, .int 3⟩ ∧
      Shift.extended.consistent = false ∧ Shift.extended.isConsistent = .ok false := by
  have stored : Shift.extended.get? "start" "finish" = some ⟨.int 4, .int 3⟩ := rfl
  obtain ⟨alarm, confirmed⟩ := Shift.extended.flag_sound Shift.extended_reachable
  have cleared := alarm ⟨"start", "finish", _, stored, .inl rfl⟩
  exact ⟨Shift.extended_reachable, Shift.extended_addable, stored, cleared,
    confirmed cleared Shift.extended_addable⟩

end Chronoplan
