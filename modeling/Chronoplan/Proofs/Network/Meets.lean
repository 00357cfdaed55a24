import Chronoplan.Proofs.Network.Additions

/-!
# Meets of many bounds

What a network stores may be any numbers, while the bounds that are met with it hold integers or
infinite numbers. Met one after the other, in any order and any number of times, they leave the
same bound: its lower number is the largest of all lower ones, and its upper number the smallest of
all upper ones, whether or not the two are in order.
-/

set_option autoImplicit false

namespace Chronoplan

/-! ### Folds that only membership decides -/

section Fold

variable {α β : Type} (f : β → α → β)

/-- In some list each step commutes with the others and has no effect a second time. -/
structure Absorbs (l : List α) : Prop where
  swap : ∀ x ∈ l, ∀ y ∈ l, ∀ b, f (f b x) y = f (f b y) x
  again : ∀ x ∈ l, ∀ b, f (f b x) x = f b x

variable {f}

theorem Absorbs.mono {l l' : List α} (h : Absorbs f l) (sub : ∀ x ∈ l', x ∈ l) : Absorbs f l' :=
  ⟨fun x hx y hy => h.swap x (sub x hx) y (sub y hy), fun x hx => h.again x (sub x hx)⟩

theorem Absorbs.foldl_concat {l : List α} (h : Absorbs f l) (x : α) (hx : x ∈ l) (b : β) :
    (l ++ [x]).foldl f b = l.foldl f b := by
  obtain ⟨s, t, rfl⟩ := List.append_of_mem hx
  have moved : ((s ++ x :: t) ++ [x]).Perm (s ++ x :: x :: t) := by
    rw [List.append_assoc, List.cons_append]
    exact List.Perm.append_left s (.cons x (List.perm_append_singleton x t))
  have inside : Absorbs f (s ++ x :: t ++ [x]) := h.mono fun y hy => by
    rcases List.mem_append.mp hy with hy | hy
    · exact hy
    · rwa [List.mem_singleton.mp hy]
  rw [moved.foldl_eq' inside.swap, List.foldl_append, List.foldl_append, List.foldl_cons,
    List.foldl_cons, List.foldl_cons, h.again x hx]

theorem Absorbs.foldl_append {l : List α} (h : Absorbs f l) (l' : List α)
    (sub : ∀ x ∈ l', x ∈ l) (b : β) : (l ++ l').foldl f b = l.foldl f b := by
  induction l' using List.reverseRecOn with
  | nil => rw [List.append_nil]
  | append_singleton l' x ih =>
    have before := ih fun y hy => sub y (List.mem_append_left _ hy)
    have joined : Absorbs f (l ++ l') := h.mono fun y hy =>
      (List.mem_append.mp hy).elim id fun hy => sub y (List.mem_append_left _ hy)
    rw [← List.append_assoc, joined.foldl_concat x ?_, before]
    exact List.mem_append_left _ (sub x (by simp))

/-- Neither the order of the steps matters nor how often each is taken. -/
theorem Absorbs.foldl_eq {l l' : List α} (h : Absorbs f l) (same : ∀ x, x ∈ l' ↔ x ∈ l) (b : β) :
    l'.foldl f b = l.foldl f b := by
  -- Each list absorbs the other, and the two can be read one behind the other in either order.
  have h' := h.mono fun x => (same x).mp
  have joined : Absorbs f (l' ++ l) := h.mono fun x hx =>
    (List.mem_append.mp hx).elim (same x).mp id
  calc l'.foldl f b
      = (l' ++ l).foldl f b := (h'.foldl_append l (fun x => (same x).mpr) b).symm
    _ = (l ++ l').foldl f b := List.perm_append_comm.foldl_eq' joined.swap b
    _ = l.foldl f b := h.foldl_append l' (fun x => (same x).mp) b

end Fold

/-! ### The larger and the smaller of two numbers -/

section Pick

variable {α : Type} (yields : α → α → Bool)

/-- The first unless it yields to the second. -/
def pick (a b : α) : α := if yields a b then b else a

theorem pick_pick_self (a b : α) : pick yields (pick yields a b) b = pick yields a b := by
  unfold pick
  split_ifs <;> rfl

variable (trans : ∀ a b c, yields a b = true → yields b c = true → yields a c = true)
  (irrefl : ∀ a, yields a a = false)
include trans

/-- Where the second yields to the third, it does not count before that one. -/
theorem pick_before (a b c : α) (bc : yields b c = true) :
    pick yields (pick yields a b) c = pick yields a c := by
  unfold pick
  by_cases ab : yields a b = true
  · simp [ab, bc, trans a b c ab bc]
  · simp [ab]

include irrefl

/-- It does not count behind that one either. -/
theorem pick_behind (a b c : α) (bc : yields b c = true) :
    pick yields (pick yields a c) b = pick yields a c := by
  unfold pick
  by_cases ac : yields a c = true
  · have stays : ¬ yields c b = true := fun cb => by simpa [irrefl] using trans b c b bc cb
    simp [ac, stays]
  · have stays : ¬ yields a b = true := fun ab => ac (trans a b c ab bc)
    simp [ac, stays]

/-- Two that are the same unless one yields to the other can be picked in either order. -/
theorem pick_right_comm (a b c : α) (total : yields b c = true ∨ yields c b = true ∨ b = c) :
    pick yields (pick yields a b) c = pick yields (pick yields a c) b := by
  rcases total with bc | cb | rfl
  · rw [pick_before yields trans a b c bc, pick_behind yields trans irrefl a b c bc]
  · rw [pick_before yields trans a c b cb, pick_behind yields trans irrefl a c b cb]
  · rfl

section Read

variable {β : Type} (read : β → α) (l : List β) (a : α) (c : β)

omit irrefl in
theorem pick_of_none_yields (h : ∀ x ∈ l, yields a (read x) = false)
    (self : yields (read c) (read c) = false) :
    ∀ x ∈ l ++ [c], yields (pick yields a (read c)) (read x) = false := by
  intro x hx
  unfold pick
  split_ifs with ac
  · rcases List.mem_append.mp hx with hx | hx
    · rw [← Bool.not_eq_true]
      intro cx
      exact Bool.false_ne_true ((h x hx).symm.trans (trans a _ _ ac cx))
    · rwa [List.mem_singleton.mp hx]
  · rcases List.mem_append.mp hx with hx | hx
    · exact h x hx
    · rw [List.mem_singleton.mp hx]
      exact Bool.eq_false_iff.mpr ac

omit trans irrefl in
theorem exists_read_eq_pick (h : ∃ x ∈ l, read x = a) :
    ∃ x ∈ l ++ [c], read x = pick yields a (read c) := by
  unfold pick
  split_ifs
  · exact ⟨c, by simp, rfl⟩
  · obtain ⟨x, hx, rfl⟩ := h
    exact ⟨x, List.mem_append_left _ hx, rfl⟩

end Read

end Pick

namespace Place

theorem lt_irrefl (p : Place) : p.lt p = false := by
  cases p <;> simp [lt]

theorem lt_trans (p q r : Place) (hpq : p.lt q = true) (hqr : q.lt r = true) : p.lt r = true := by
  cases p <;> cases q <;> cases r <;> simp_all [lt]
  exact hpq.trans hqr

end Place

namespace Number

theorem lt_iff_place? (x y : Number) :
    x.lt y = true ↔ ∃ p q, x.place? = some p ∧ y.place? = some q ∧ p.lt q = true := by
  unfold lt
  split
  · simp [place?, Place.lt]
  · cases x.place? with
    | none => simp
    | some p => cases y.place? <;> simp

theorem lt_irrefl (x : Number) : x.lt x = false := by
  rw [← Bool.not_eq_true, lt_iff_place?]
  rintro ⟨p, q, hp, hq, h⟩
  cases hp.symm.trans hq
  rw [p.lt_irrefl] at h
  cases h

theorem lt_trans (x y z : Number) (hxy : x.lt y = true) (hyz : y.lt z = true) :
    x.lt z = true := by
  obtain ⟨p, q, hp, hq, h⟩ := (lt_iff_place? x y).mp hxy
  obtain ⟨q', r, hq', hr, h'⟩ := (lt_iff_place? y z).mp hyz
  cases hq.symm.trans hq'
  exact (lt_iff_place? x z).mpr ⟨p, r, hp, hr, p.lt_trans q r h h'⟩

/-- Integers and infinite numbers are the same when neither is below the other. -/
theorem Integral.trichotomy {x y : Number} (hx : x.Integral) (hy : y.Integral) :
    x.lt y = true ∨ y.lt x = true ∨ x = y := by
  obtain rfl | rfl | ⟨m, rfl⟩ := hx.cases <;> obtain rfl | rfl | ⟨n, rfl⟩ := hy.cases
  · exact .inr (.inr rfl)
  · exact .inr (.inl rfl)
  · exact .inr (.inl rfl)
  · exact .inl rfl
  · exact .inr (.inr rfl)
  · exact .inl rfl
  · exact .inl rfl
  · exact .inr (.inl rfl)
  · simp only [lt_int, decide_eq_true_eq, Number.int.injEq]
    omega

end Number

/-! ### Meets -/

namespace Bound

theorem meet_self (a b : Bound) : (a.meet b).meet b = a.meet b := by
  have low := pick_pick_self Number.lt a.lo b.lo
  have high := pick_pick_self (fun x y => y.lt x) a.hi b.hi
  exact congrArg₂ Bound.mk low high

theorem meet_right_comm (a b c : Bound) (hb : b.Integral) (hc : c.Integral) :
    (a.meet b).meet c = (a.meet c).meet b := by
  have low := pick_right_comm Number.lt Number.lt_trans Number.lt_irrefl a.lo b.lo c.lo
    (hb.lo_integral.trichotomy hc.lo_integral)
  -- Of upper numbers the smaller one is picked: there a number yields to what lies below it.
  have high := pick_right_comm (fun x y => y.lt x) (fun x y z xy yz => Number.lt_trans z y x yz xy)
    Number.lt_irrefl a.hi b.hi c.hi
    ((hc.hi_integral.trichotomy hb.hi_integral).imp_right (Or.imp_right Eq.symm))
  exact congrArg₂ Bound.mk low high

theorem meet_comm (a b : Bound) (ha : a.Integral) (hb : b.Integral) : a.meet b = b.meet a := by
  obtain ⟨x, y, rfl⟩ := ha
  obtain ⟨x', y', rfl⟩ := hb
  simp only [meet_ofDistances, min_comm]

/-- A bound whose lower number is the largest and whose upper number is the smallest of a list. -/
structure Tightest (b : Bound) (bs : List Bound) : Prop where
  lower : ∃ x ∈ bs, x.lo = b.lo
  largest : ∀ x ∈ bs, b.lo.lt x.lo = false
  upper : ∃ x ∈ bs, x.hi = b.hi
  smallest : ∀ x ∈ bs, x.hi.lt b.hi = false

theorem tightest_single (b : Bound) : b.Tightest [b] := by
  constructor <;> simp [Number.lt_irrefl]

theorem Tightest.meet {b : Bound} {bs : List Bound} (h : b.Tightest bs) (c : Bound) :
    (b.meet c).Tightest (bs ++ [c]) := by
  constructor
  · exact exists_read_eq_pick Number.lt lo bs b.lo c h.lower
  · exact pick_of_none_yields Number.lt Number.lt_trans lo bs b.lo c h.largest (Number.lt_irrefl _)
  · exact exists_read_eq_pick (fun x y => y.lt x) hi bs b.hi c h.upper
  · exact pick_of_none_yields (fun x y => y.lt x)
      (fun x y z xy yz => Number.lt_trans z y x yz xy) hi bs b.hi c h.smallest (Number.lt_irrefl _)

theorem Tightest.foldl {b : Bound} {bs : List Bound} (h : b.Tightest bs) (cs : List Bound) :
    (cs.foldl Bound.meet b).Tightest (bs ++ cs) := by
  induction cs generalizing b bs with
  | nil => rwa [List.append_nil]
  | cons c cs ih =>
    rw [List.foldl_cons, List.append_cons]
    exact ih (h.meet c)

/-- Numbers that have crossed stay crossed. -/
theorem crossed_meet (b c : Bound) (h : b.crossed = true) : (b.meet c).crossed = true := by
  have low : b.hi.lt (b.lo.max c.lo) = true := by
    unfold Number.max
    split_ifs with less
    · exact Number.lt_trans _ _ _ h less
    · exact h
  show (b.hi.min c.hi).lt (b.lo.max c.lo) = true
  unfold Number.min
  split_ifs with less
  · exact Number.lt_trans _ _ _ less low
  · exact low

theorem crossed_foldl (cs : List Bound) (b : Bound) (h : b.crossed = true) :
    (cs.foldl Bound.meet b).crossed = true := by
  induction cs generalizing b with
  | nil => exact h
  | cons c cs ih => exact ih _ (b.crossed_meet c h)

end Bound

/-! ### What is stored after meets -/

/-- What is stored after a bound has been met with what was stored before, if anything was. -/
def met (old : Option Bound) (b : Bound) : Option Bound := some ((old.map (·.meet b)).getD b)

/-- What is stored after a list of bounds. -/
def metAll (old : Option Bound) (bs : List Bound) : Option Bound := bs.foldl met old

theorem metAll_append (old : Option Bound) (bs cs : List Bound) :
    metAll old (bs ++ cs) = metAll (metAll old bs) cs := List.foldl_append

theorem metAll_some (b : Bound) (bs : List Bound) :
    metAll (some b) bs = some (bs.foldl Bound.meet b) := by
  induction bs generalizing b with
  | nil => rfl
  | cons c bs ih => exact ih (b.meet c)

theorem metAll_cons (old : Option Bound) (b : Bound) (bs : List Bound) :
    metAll old (b :: bs) = some (bs.foldl Bound.meet ((old.map (·.meet b)).getD b)) :=
  metAll_some _ bs

theorem metAll_eq_none_iff (old : Option Bound) (bs : List Bound) :
    metAll old bs = none ↔ old = none ∧ bs = [] := by
  cases bs with
  | nil => simp [metAll]
  | cons b bs => simp [metAll_cons]

/-- What is stored is the tightest of what was stored and what has been met. -/
theorem metAll_tightest (old : Option Bound) (bs : List Bound) (b : Bound)
    (h : metAll old bs = some b) : b.Tightest (old.toList ++ bs) := by
  cases old with
  | some a =>
    rw [metAll_some] at h
    cases h
    exact a.tightest_single.foldl bs
  | none =>
    cases bs with
    | nil => cases h
    | cons c bs =>
      rw [metAll_cons] at h
      cases h
      exact c.tightest_single.foldl bs

theorem met_absorbs (bs : List Bound) (h : ∀ b ∈ bs, b.Integral) : Absorbs met bs := by
  constructor
  · intro b hb c hc old
    cases old with
    | none => exact congrArg some (b.meet_comm c (h b hb) (h c hc))
    | some a => exact congrArg some (a.meet_right_comm b c (h b hb) (h c hc))
  · intro b hb old
    cases old with
    | none =>
      refine congrArg some ?_
      show b.meet b = b
      simp [Bound.meet, Number.max, Number.min]
    | some a => exact congrArg some (a.meet_self b)

end Chronoplan
