import Chronoplan.Proofs.Network.Solutions

/-!
# What a bound adds

A bound that is added to a network narrows what is stored on its pair of points, both ways. The
solutions of the network are then those from before that meet the bound as well, and the stored
lower numbers rise to those of the bound.
-/

set_option autoImplicit false

namespace Chronoplan

namespace Bound

/-- The lower number, unless it is infinite. -/
def least (b : Bound) : WithBot ℤ :=
  match b.lo with
  | .int m => m
  | _ => ⊥

theorem least_ofDistances_coe (m : ℤ) (forth : WithTop ℤ) :
    (ofDistances (m : WithTop ℤ) forth).least = ((-m : ℤ) : WithBot ℤ) := rfl

theorem least_ofDistances_top (forth : WithTop ℤ) : (ofDistances ⊤ forth).least = ⊥ := rfl

theorem least_meet (a b : Bound) (ha : a.Integral) (hb : b.Integral) :
    (a.meet b).least = max a.least b.least := by
  obtain ⟨x, forth, rfl⟩ := ha
  obtain ⟨y, forth', rfl⟩ := hb
  rw [meet_ofDistances]
  cases x using WithTop.recTopCoe with
  | top =>
    rw [top_inf_eq, least_ofDistances_top, max_bot_left]
    rfl
  | coe m =>
    cases y using WithTop.recTopCoe with
    | top =>
      rw [inf_top_eq, least_ofDistances_top, max_bot_right]
      rfl
    | coe k =>
      rw [← WithTop.coe_min]
      simp only [least_ofDistances_coe]
      rw [← WithBot.coe_max, max_neg_neg]

theorem contains_meet (a b : Bound) (ha : a.Integral) (hb : b.Integral) (d : ℤ) :
    (a.meet b).contains (.int d) = true ↔
      a.contains (.int d) = true ∧ b.contains (.int d) = true := by
  obtain ⟨x, y, rfl⟩ := ha
  obtain ⟨x', y', rfl⟩ := hb
  simp only [meet_ofDistances, contains_ofDistances, le_min_iff]
  tauto

theorem contains_negate (b : Bound) (hb : b.Integral) (d : ℤ) :
    b.negate.contains (.int (-d)) = true ↔ b.contains (.int d) = true := by
  obtain ⟨x, y, rfl⟩ := hb
  simp only [negate_ofDistances, contains_ofDistances, neg_neg]
  tauto

end Bound

theorem forall_narrow_iff (P : (String × String) × Bound → Prop) (key : String × String)
    (b : Bound) (c : Constraints)
    (hmeet : ∀ old, (key, old) ∈ c → (P (key, old.meet b) ↔ P (key, old) ∧ P (key, b))) :
    (∀ e ∈ (c.narrow key b).1, P e) ↔ (∀ e ∈ c, P e) ∧ P (key, b) := by
  unfold Constraints.narrow
  cases hf : c.find? samePair key with
  | none => exact forall_insert_of_none P key b c hf
  | some old =>
    exact forall_insert_of_some P _ key _ old c hf (hmeet old (mem_of_find? key old c hf))

theorem samePair_symm (x y : String × String) : samePair x y = samePair y x := BEq.comm

theorem samePair_trans (x y z : String × String) (hxy : samePair x y = true)
    (hyz : samePair y z = true) : samePair x z = true := by
  simp only [samePair, beq_iff_eq] at *
  exact hxy.trans hyz

theorem find?_narrow (key other : String × String) (b : Bound) (c : Constraints) :
    (c.narrow key b).1.find? samePair other =
      if key = other then some (((c.find? samePair key).map (·.meet b)).getD b)
      else c.find? samePair other := by
  have test : (samePair key other = true) = (key = other) := by simp [samePair]
  unfold Constraints.narrow
  have written : ∀ b', (c.insert samePair key b').find? samePair other =
      if key = other then some b' else c.find? samePair other := by
    intro b'
    simp only [Table.find?_insert samePair key other b' c samePair_symm samePair_trans, test]
  cases c.find? samePair key with
  | none => exact written b
  | some old => exact written (old.meet b)

theorem sameText_find?_insert {ν : Type} (k j : String) (v : ν) (t : Table String ν) :
    (t.insert sameText k v).find? sameText j = if k = j then some v else t.find? sameText j := by
  rw [Table.find?_insert sameText k j v t (fun a b => BEq.comm) ?_]
  · simp [sameText]
  · intro a b c hab hbc
    simp only [sameText, beq_iff_eq] at *
    exact hab.trans hbc

namespace Network

variable (n : Network)

theorem get?_integral (w : n.WellFormed) (a b : String) (bound : Bound)
    (h : n.get? a b = some bound) : bound.Integral :=
  (w _ (mem_of_find? (a, b) bound n.constraints h)).integral

/-- The finite lower number of the bound that is stored between two points, if any. -/
def least (a b : String) : WithBot ℤ := (n.get? a b).elim ⊥ Bound.least

theorem get?_addBound (a b c d : String) (bound : Bound) (hab : a ≠ b) :
    (n.addBound a b bound).get? c d =
      if (a, b) = (c, d) then some (((n.get? a b).map (·.meet bound)).getD bound)
      else if (b, a) = (c, d) then some (((n.get? b a).map (·.meet bound.negate)).getD bound.negate)
      else n.get? c d := by
  have apart : (a, b) ≠ (b, a) := fun h => hab (Prod.mk.inj h).1
  simp only [get?, addBound, find?_narrow, apart, if_false]
  by_cases forward : (a, b) = (c, d)
  · cases forward
    simp [hab, hab.symm]
  · simp [forward]

theorem least_met (old : Option Bound) (bound : Bound) (hold : ∀ b, old = some b → b.Integral)
    (hb : bound.Integral) :
    ((old.map (·.meet bound)).getD bound).least = max (old.elim ⊥ Bound.least) bound.least := by
  cases old with
  | none => simp
  | some b => exact Bound.least_meet b bound (hold b rfl) hb

theorem least_addBound (w : n.WellFormed) (a b c d : String) (bound : Bound)
    (hbound : bound.Integral) (hab : a ≠ b) :
    (n.addBound a b bound).least c d =
      if (a, b) = (c, d) then max (n.least c d) bound.least
      else if (b, a) = (c, d) then max (n.least c d) bound.negate.least
      else n.least c d := by
  rw [least, get?_addBound n a b c d bound hab]
  split_ifs with forward reverse
  · cases forward
    exact least_met _ _ (n.get?_integral w a b) hbound
  · cases reverse
    exact least_met _ _ (n.get?_integral w b a) (hbound.negate bound)
  · rfl

theorem narrowed_integral (w : n.WellFormed) (key : String × String) (bound : Bound)
    (hbound : bound.Integral) : ∀ e ∈ (n.constraints.narrow key bound).1, e.2.Integral :=
  narrow_forall _ _ _ _ (fun e he => (w e he).integral) hbound
    fun old hold => hold.meet old bound hbound

theorem solves_narrowed (w : n.WellFormed) (a b : String) (bound : Bound)
    (hbound : bound.Integral) (t : String → ℤ) :
    (∀ e ∈ (n.constraints.narrow (a, b) bound).1,
        e.2.contains (.int (t e.1.2 - t e.1.1)) = true) ↔
      n.Solves t ∧ bound.contains (.int (t b - t a)) = true :=
  forall_narrow_iff (fun e => e.2.contains (.int (t e.1.2 - t e.1.1)) = true)
    (a, b) bound n.constraints fun old hold =>
      Bound.contains_meet old _ (w _ hold).integral hbound _

/-- A solution from before solves the network with a further bound exactly when it meets it. -/
theorem solves_addBound (w : n.WellFormed) (a b : String) (bound : Bound)
    (hbound : bound.Integral) (t : String → ℤ) :
    (n.addBound a b bound).Solves t ↔
      n.Solves t ∧ bound.contains (.int (t b - t a)) = true := by
  have back : bound.negate.contains (.int (t a - t b)) = true ↔
      bound.contains (.int (t b - t a)) = true := by
    rw [← bound.contains_negate hbound, neg_sub]
  have reverse := forall_narrow_iff (fun e => e.2.contains (.int (t e.1.2 - t e.1.1)) = true)
    (b, a) bound.negate (n.constraints.narrow (a, b) bound).1 fun old hold =>
      Bound.contains_meet old _ (n.narrowed_integral w (a, b) bound hbound _ hold)
        (hbound.negate bound) _
  refine reverse.trans ?_
  rw [n.solves_narrowed w a b bound hbound t, back]
  exact ⟨fun h => h.1, fun h => ⟨h, h.2⟩⟩

end Network

end Chronoplan
