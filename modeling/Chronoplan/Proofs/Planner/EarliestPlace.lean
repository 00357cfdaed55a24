import Chronoplan.Proofs.Network.EarliestSlot
import Chronoplan.Proofs.Planner.Placing

/-!
# The earliest place for a durative command

The new points of a durative command are bound to each other and to the origin only. A solution of
the network therefore extends to the booking exactly when the command can end by its deadline from
where it is placed, and the place is the least one that is free. So a command finds its place
whenever there is one, and only numbers that are too large stop the search.
-/

set_option autoImplicit false

namespace Chronoplan

/-- What a durative command asks for in integers. The greatest duration may be without limit. -/
structure Terms where
  least : ℤ
  most : WithTop ℤ
  release : Option ℤ
  deadline : Option ℤ
  positive : 0 < least
  ordered : (least : WithTop ℤ) ≤ most

structure Lasting.Asks (e : Lasting) (q : Terms) : Prop where
  duration : durationParts e.duration = [.int q.least, .num (.ofDistance q.most)]
  release : e.release = q.release.elim .null .int
  deadline : e.deadline = q.deadline.elim .null .int

namespace Terms

/-- Where the search for a place begins. -/
def earliest (q : Terms) (cursor : ℤ) : ℤ := q.release.elim cursor (max cursor)

/-- The integers of a booking from a time on. -/
def Names (q : Terms) (s k : ℤ) : Prop :=
  k = s ∨ k = q.least ∨ q.most = k ∨ k ∈ q.deadline ∨ k ∈ q.release

end Terms

/-! ### The bounds of a booking -/

namespace Bound

/-- Between a least and a greatest duration. -/
def lasting (d : ℤ) (most : WithTop ℤ) : Bound := ⟨.int d, .ofDistance most⟩

/-- No later than a deadline. -/
def atMost (x : ℤ) : Bound := ⟨.negInf, .int x⟩

/-- No earlier than a release time. -/
def atLeast (r : ℤ) : Bound := ⟨.int r, .posInf⟩

theorem lasting_eq (d : ℤ) (most : WithTop ℤ) :
    lasting d most = ofDistances ((-d : ℤ) : WithTop ℤ) most := by
  rw [ofDistances, ← Number.int_eq_neg_ofDistance]
  rfl

theorem lasting_integral (d : ℤ) (most : WithTop ℤ) : (lasting d most).Integral :=
  ⟨_, _, lasting_eq d most⟩

theorem atMost_eq (x : ℤ) : atMost x = ofDistances ⊤ (x : WithTop ℤ) := rfl

theorem atMost_integral (x : ℤ) : (atMost x).Integral := ⟨_, _, atMost_eq x⟩

theorem atLeast_eq (r : ℤ) : atLeast r = lasting r ⊤ := rfl

theorem atLeast_integral (r : ℤ) : (atLeast r).Integral := lasting_integral r ⊤

theorem exactly_eq (s : ℤ) : exactly (.int s) = lasting s s := rfl

theorem usable_ofDistances (back forth : WithTop ℤ) :
    (ofDistances back forth).Usable ↔ 0 ≤ back + forth ∧ (∀ k : ℤ, back = k → Addable k) ∧
      ∀ k : ℤ, forth = k → Addable k := by
  have low : (Number.ofDistance back).neg.toBinary64?.isSome = true ↔
      ∀ k : ℤ, back = k → Addable k := by
    cases back using WithTop.recTopCoe with
    | top => exact iff_of_true rfl fun k h => by cases h
    | coe m =>
      simp only [WithTop.coe_inj, forall_eq', ← addable_neg m]
      exact Iff.rfl
  have high : (Number.ofDistance forth).toBinary64?.isSome = true ↔
      ∀ k : ℤ, forth = k → Addable k := by
    cases forth using WithTop.recTopCoe with
    | top => exact iff_of_true rfl fun k h => by cases h
    | coe m =>
      simp only [WithTop.coe_inj, forall_eq']
      exact Iff.rfl
  have order : (ofDistances back forth).crossed = false ↔ 0 ≤ back + forth := by
    rw [crossed_ofDistances, decide_eq_false_iff_not, not_lt]
  constructor
  · intro h
    exact ⟨order.mp h.ordered, low.mp h.small.1, high.mp h.small.2⟩
  · rintro ⟨h, hlow, hhigh⟩
    exact ⟨⟨back, forth, rfl⟩, order.mpr h, low.mpr hlow, high.mpr hhigh⟩

theorem lasting_room (d : ℤ) (most : WithTop ℤ) (h : (d : WithTop ℤ) ≤ most) :
    (0 : WithTop ℤ) ≤ ((-d : ℤ) : WithTop ℤ) + most := by
  cases most using WithTop.recTopCoe with
  | top => simp
  | coe m =>
    rw [WithTop.coe_le_coe] at h
    rw [← WithTop.coe_add, ← WithTop.coe_zero, WithTop.coe_le_coe]
    omega

theorem lasting_ordered (d : ℤ) (most : WithTop ℤ) (h : (d : WithTop ℤ) ≤ most) :
    (lasting d most).crossed = false := by
  rw [lasting_eq, crossed_ofDistances, decide_eq_false_iff_not, not_lt]
  exact lasting_room d most h

theorem usable_lasting (d : ℤ) (most : WithTop ℤ) (h : (d : WithTop ℤ) ≤ most) :
    (lasting d most).Usable ↔ Addable d ∧ ∀ k : ℤ, most = k → Addable k := by
  rw [lasting_eq, usable_ofDistances]
  simp only [lasting_room d most h, true_and, WithTop.coe_inj, forall_eq', addable_neg]

theorem usable_atMost (x : ℤ) : (atMost x).Usable ↔ Addable x := by
  rw [atMost_eq, usable_ofDistances]
  simp

theorem usable_atLeast (r : ℤ) : (atLeast r).Usable ↔ Addable r := by
  rw [atLeast_eq, usable_lasting r ⊤ le_top]
  simp

theorem usable_exactly (s : ℤ) : (exactly (.int s)).Usable ↔ Addable s := by
  rw [exactly_eq, usable_lasting s s le_rfl]
  simp

theorem lasting_contains (d : ℤ) (most : WithTop ℤ) (k : ℤ) :
    (lasting d most).contains (.int k) = true ↔ d ≤ k ∧ (k : WithTop ℤ) ≤ most := by
  rw [lasting_eq, contains_ofDistances, WithTop.coe_le_coe, neg_le_neg_iff]

theorem atMost_contains (x k : ℤ) : (atMost x).contains (.int k) = true ↔ k ≤ x := by
  rw [atMost_eq, contains_ofDistances]
  simp

theorem atLeast_contains (r k : ℤ) : (atLeast r).contains (.int k) = true ↔ r ≤ k := by
  rw [atLeast_eq, lasting_contains]
  simp

end Bound

/-! ### What a booking writes -/

namespace Network

theorem limit_int (n : Network) (p : String) (x : ℤ) (bound : Value → Value × Value) (b : Bound)
    (values : bound (.int x) = (.num b.lo, .num b.hi)) :
    n.limit p (.int x) bound =
      Bound.ofValues (.num b.lo) (.num b.hi) >>= fun b => .ok (n.addBound originPoint p b) := by
  show n.addConstraint originPoint p (bound (.int x)).1 (bound (.int x)).2 = _
  rw [values]
  rfl

section Limit

variable (n : Network) (p : String) (given : Option ℤ) (bound : Value → Value × Value)
  (fit : ℤ → Bound) (values : ∀ x, bound (.int x) = (.num (fit x).lo, .num (fit x).hi))
  (integral : ∀ x, (fit x).Integral)
include values integral

/-- A limit by an optional integer is written when the bound it stands for is accepted. -/
theorem limit_eq_ok_iff (m : Network) :
    n.limit p (given.elim .null .int) bound = .ok m ↔ (∀ x ∈ given, (fit x).Usable) ∧
      m = n.limited p given fit := by
  unfold limited
  cases given with
  | none =>
    rw [Option.elim_none, Option.elim_none, limit, Except.ok.injEq, eq_comm]
    simp
  | some x =>
    rw [Option.elim_some, Option.elim_some, n.limit_int p x bound _ (values x), bind_eq_ok_iff]
    simp only [ofValues_eq_ok_iff _ _ (integral x), Except.ok.injEq]
    constructor
    · rintro ⟨b, ⟨usable, rfl⟩, rfl⟩
      exact ⟨by simpa using usable, rfl⟩
    · rintro ⟨usable, rfl⟩
      exact ⟨_, ⟨usable x rfl, rfl⟩, rfl⟩

theorem limit_fault (ordered : ∀ x, (fit x).crossed = false) (f : Fault)
    (h : n.limit p (given.elim .null .int) bound = .error f) : f = .tooLarge := by
  cases given with
  | none => cases h
  | some x =>
    rw [Option.elim_some, n.limit_int p x bound _ (values x)] at h
    obtain h | ⟨b, -, h⟩ := (bind_eq_error_iff _ _ _).mp h
    · exact ofValues_fault (fit x) (integral x) (ordered x) f h
    · cases h

end Limit

theorem durationPair_int (n : Network) (d : ℤ) (hi : Value) (hd : 0 ≤ d) :
    n.durationPair (.tuple [.int d, hi]) = .ok (.int d, hi) := by
  have positive : (Value.int d).lt (.int 0) = .ok false := by
    show Except.ok ((Number.int d).lt (.int 0)) = .ok false
    rw [Number.lt_int, decide_eq_false (not_lt.mpr hd)]
  unfold durationPair durationBounds
  simp only [pure, Except.pure, ok_bind, positive]
  rfl

theorem addInterval_lasting (n : Network) (id text : String) (d s : ℤ) (hi : Value) (hd : 0 ≤ d) :
    n.addInterval {
      id := id
      duration := .tuple [.int d, hi]
      start := .num (.int s)
      finish := .null
      metadata := .dict [(.str "command", .str text)] } =
    Bound.ofValues (.int d) hi >>= fun bound => Bound.ofValues (.int s) (.int s) >>= fun _ =>
      .ok (n.anchored id bound (.int s) [("command", .str text)]) := by
  unfold addInterval
  simp only [ticksOf, ok_bind, specDuration, n.durationPair_int d hi hd, addConstraint, anchor]
  cases Bound.ofValues (.int d) hi with
  | error f => rfl
  | ok bound =>
    cases hs : Bound.ofValues (.num (.int s)) (.num (.int s)) with
    | error f => rfl
    | ok fixed =>
      obtain rfl := Bound.ofValues_exactly _ fixed hs
      rfl

/-- The network with a durative command booked. -/
def arranged (n : Network) (id : String) (q : Terms) (s : ℤ) (data : Metadata) : Network :=
  ((n.anchored id (.lasting q.least q.most) (.int s) data).limited (endPoint id) q.deadline
    .atMost).limited (startPoint id) q.release .atLeast

end Network

section Booking

variable (n : Network) (c : Call) (i : ℕ) (e : Lasting) (q : Terms) (asks : e.Asks q) (s : ℤ)
include asks

theorem book_asked (writable : c.isWritable = true) :
    book n c i e (.int s) = (Bound.ofValues (.int q.least) (.num (.ofDistance q.most)) >>=
      fun bound => Bound.ofValues (.int s) (.int s) >>= fun _ =>
        .ok (n.anchored (bookingName c i) bound (.int s) [("command", .str c.text)])) >>=
      fun n => n.limit (endPoint (bookingName c i)) (q.deadline.elim .null .int)
        (fun d => (.num .negInf, d)) >>=
      fun n => n.limit (startPoint (bookingName c i)) (q.release.elim .null .int)
        fun r => (r, .num .posInf) := by
  rw [← n.addInterval_lasting (bookingName c i) c.text q.least s _ q.positive.le, ← asks.duration,
    ← asks.deadline, ← asks.release, book, writable]
  rfl

theorem book_eq_ok_iff (m : Network) :
    book n c i e (.int s) = .ok m ↔ c.isWritable = true ∧ (∀ k, q.Names s k → Addable k) ∧
      m = n.arranged (bookingName c i) q s [("command", .str c.text)] := by
  have duration : ∀ b, Bound.ofValues (.int q.least) (.num (.ofDistance q.most)) = .ok b ↔
      (Bound.lasting q.least q.most).Usable ∧ b = .lasting q.least q.most := fun b =>
    ofValues_eq_ok_iff (.lasting q.least q.most) b (Bound.lasting_integral _ _)
  have fixed : (∃ b, Bound.ofValues (.int s) (.int s) = .ok b) ↔
      (Bound.exactly (.int s)).Usable :=
    (exists_congr fun b => ofValues_eq_ok_iff (.exactly (.int s)) b
      (Bound.exactly_integral s)).trans (by simp)
  have ended := fun n m => Network.limit_eq_ok_iff n (endPoint (bookingName c i)) q.deadline
    (fun d => (.num .negInf, d)) Bound.atMost (fun _ => rfl) Bound.atMost_integral m
  have released := fun n m => Network.limit_eq_ok_iff n (startPoint (bookingName c i)) q.release
    (fun r => (r, .num .posInf)) Bound.atLeast (fun _ => rfl) Bound.atLeast_integral m
  -- Each of the four bounds is accepted when its own integers are small enough.
  have named : (∀ k, q.Names s k → Addable k) ↔
      (Bound.lasting q.least q.most).Usable ∧ (Bound.exactly (.int s)).Usable ∧
        (∀ x ∈ q.deadline, (Bound.atMost x).Usable) ∧
        ∀ r ∈ q.release, (Bound.atLeast r).Usable := by
    simp only [Bound.usable_lasting _ _ q.ordered, Bound.usable_exactly, Bound.usable_atMost,
      Bound.usable_atLeast, Terms.Names, or_imp, forall_and, forall_eq]
    tauto
  cases writable : c.isWritable with
  | false => simp [book, writable]
  | true =>
    rw [book_asked n c i e q asks s writable]
    simp only [true_and, bind_eq_ok_iff, ended, released, named, duration, ← fixed, Except.ok.injEq]
    constructor
    · rintro ⟨_, ⟨_, ⟨usable, rfl⟩, _, exact, rfl⟩, _, ⟨deadline, rfl⟩, release, rfl⟩
      exact ⟨⟨usable, ⟨_, exact⟩, deadline, release⟩, rfl⟩
    · rintro ⟨⟨usable, ⟨_, exact⟩, deadline, release⟩, rfl⟩
      exact ⟨_, ⟨_, ⟨usable, rfl⟩, _, exact, rfl⟩, _, ⟨deadline, rfl⟩, release, rfl⟩

/-- Only an integer that is too large is not booked, or a command that cannot be written. -/
theorem book_fault (f : Fault) (h : book n c i e (.int s) = .error f) :
    f = if c.isWritable then .tooLarge else .malformed := by
  cases writable : c.isWritable with
  | false =>
    rw [book, writable] at h
    exact (Except.error.inj h).symm
  | true =>
    rw [if_pos rfl]
    rw [book_asked n c i e q asks s writable] at h
    obtain h | ⟨booked, -, h⟩ := (bind_eq_error_iff _ _ _).mp h
    · obtain h | ⟨bound, -, h⟩ := (bind_eq_error_iff _ _ _).mp h
      · exact ofValues_fault (.lasting q.least q.most) (Bound.lasting_integral _ _)
          (Bound.lasting_ordered _ _ q.ordered) f h
      · obtain h | ⟨fixed, -, h⟩ := (bind_eq_error_iff _ _ _).mp h
        · exact ofValues_fault (.exactly (.int s)) (Bound.exactly_integral s)
            (Bound.lasting_ordered s s le_rfl) f h
        · cases h
    · obtain h | ⟨ended, -, h⟩ := (bind_eq_error_iff _ _ _).mp h
      · exact booked.limit_fault _ q.deadline _ Bound.atMost (fun _ => rfl) Bound.atMost_integral
          (fun _ => rfl) f h
      · exact ended.limit_fault _ q.release _ Bound.atLeast (fun _ => rfl)
          Bound.atLeast_integral (fun r => Bound.lasting_ordered r ⊤ le_top) f h

end Booking

/-! ### What a booking allows -/

namespace Network

section

variable (n : Network) (w : n.WellFormed)
include w

variable (id : String) (q : Terms) (s : ℤ) (data : Metadata)

theorem anchored_wellFormed :
    (n.anchored id (.lasting q.least q.most) (.int s) data).WellFormed :=
  (n.anchored_booked w id _ (Bound.lasting_integral _ _) s q.least rfl data).wellFormed

theorem ended_wellFormed : ((n.anchored id (.lasting q.least q.most) (.int s) data).limited
    (endPoint id) q.deadline .atMost).WellFormed :=
  limited_wellFormed _ (n.anchored_wellFormed w id q s data) _ _ _ Bound.atMost_integral

theorem arranged_wellFormed : (n.arranged id q s data).WellFormed :=
  limited_wellFormed _ (n.ended_wellFormed w id q s data) _ _ _ Bound.atLeast_integral

theorem solves_arranged (t : String → ℤ) :
    (n.arranged id q s data).Solves t ↔
      (n.anchored id (.lasting q.least q.most) (.int s) data).Solves t ∧
        (∀ x ∈ q.deadline, t (endPoint id) - t originPoint ≤ x) ∧
        ∀ r ∈ q.release, r ≤ t (startPoint id) - t originPoint := by
  rw [arranged,
    solves_limited _ (n.ended_wellFormed w id q s data) _ _ _ Bound.atLeast_integral,
    solves_limited _ (n.anchored_wellFormed w id q s data) _ _ _ Bound.atMost_integral, and_assoc]
  simp only [Bound.atMost_contains, Bound.atLeast_contains]

/-- Under a fresh name a command that is released can be booked exactly when from its start on it
can end by its deadline. -/
theorem arranged_solvable_iff (hstart : startPoint id ∉ n.points) (hend : endPoint id ∉ n.points)
    (solvable : ∃ t, n.Solves t) (released : ∀ r ∈ q.release, r ≤ s) :
    (∃ t, (n.arranged id q s data).Solves t) ↔ ∀ x ∈ q.deadline, s + q.least ≤ x := by
  have integral := Bound.lasting_integral q.least q.most
  simp only [n.solves_arranged w id q s data]
  constructor
  · rintro ⟨t, ht, ended, -⟩ x hx
    obtain ⟨-, lasts, starts⟩ := (n.solves_anchored w id _ integral s data t).mp ht
    have least := ((Bound.lasting_contains _ _ _).mp lasts).1
    have latest := ended x hx
    omega
  · intro intime
    -- A solution from before is kept, and the new points are put as early as they may be.
    obtain ⟨t, ht⟩ := solvable
    have shortest : (Bound.lasting q.least q.most).contains (.int q.least) = true :=
      (Bound.lasting_contains _ _ _).mpr ⟨le_rfl, q.ordered⟩
    refine ⟨spanning t id s q.least,
      n.spanning_solves w id _ integral s data q.least shortest hstart hend t ht, ?_, ?_⟩
    · intro x hx
      have upto := intime x hx
      rw [spanning_end, spanning_origin]
      omega
    · intro r hr
      have since := released r hr
      rw [spanning_start, spanning_origin]
      omega

theorem reason_eq_none_iff : n.report.reason = none ↔ ∃ t, n.Solves t := by
  rw [n.solvable_iff w, ← n.report_consistent, Report.reason]
  split_ifs with h <;> simp [h]

end

end Network

/-! ### The place -/

theorem earliestStart_asks (e : Lasting) (q : Terms) (asks : e.Asks q) (cursor : ℤ) :
    earliestStart (.int cursor) e.release = .ok (.int (q.earliest cursor)) := by
  rw [asks.release, Terms.earliest]
  cases q.release with
  | none => rfl
  | some r => exact congrArg Except.ok (max_int cursor r)

theorem Terms.released_of_earliest_le (q : Terms) (cursor s : ℤ) (h : q.earliest cursor ≤ s) :
    cursor ≤ s ∧ ∀ r ∈ q.release, r ≤ s := by
  unfold Terms.earliest at h
  cases hr : q.release with
  | none => simpa [hr] using h
  | some r => simpa [hr] using h

/-- What comes of a booking that the check reports on. -/
def outcome (c : Call) (m : Network) (r : Report) (s d : ℤ) : Except Reason (Network × Action) :=
  match r.reason with
  | some why => .error (networkFailure c
      (c.text ++ " makes the temporal network inconsistent: " ++ why))
  | none => .ok (m, { command := c, start := .int s, finish := .int (s + d) })

section

variable (node : Node) (c : Call) (e : Lasting) (q : Terms) (asks : e.Asks q) (cursor : ℤ)
  (hcursor : node.cursor = .int cursor)
include asks hcursor

/-- Where a free slot is found, the command is booked at its start, and the check decides. -/
theorem place_eq (s : ℤ) (slot : Slot) (start : slot.start = .int s)
    (hslot : node.network.nextSlot (.num (.int q.least)) (.int (q.earliest cursor)) none =
      .ok (some slot))
    (clear : node.network.overlapping (.int s) (.int (s + q.least)) = .ok []) :
    place node c e =
      book node.network c node.commands.length e (.int s) >>= fun m => m.check >>= fun r =>
        .ok (outcome c m r s q.least) := by
  have least : leastDuration e.duration = .ok (.num (.int q.least)) := by
    rw [leastDuration, asks.duration]
  have length : orFault Fault.illTyped (Value.num (.int q.least)).number? = .ok (.int q.least) :=
    rfl
  have finish : addNumbers (.int s) (.int q.least) = .ok (.int (s + q.least)) := rfl
  unfold place
  rw [least, ok_bind, hcursor, earliestStart_asks e q asks cursor, ok_bind, hslot, ok_bind]
  simp only [start, length, ok_bind, finish, clear, List.isEmpty_nil, Bool.not_true,
    Bool.false_eq_true, if_false, outcome]
  congr 1
  funext m
  congr 1
  funext r
  cases r.reason <;> rfl

theorem place_eq_error (fault : Fault)
    (h : node.network.nextSlot (.num (.int q.least)) (.int (q.earliest cursor)) none =
      .error fault) : place node c e = .error fault := by
  have least : leastDuration e.duration = .ok (.num (.int q.least)) := by
    rw [leastDuration, asks.duration]
  unfold place
  rw [least, ok_bind, hcursor, earliestStart_asks e q asks cursor, ok_bind, h]
  rfl

end

theorem Network.intervals_whole (n : Network) (w : n.WellFormed) (is : List Interval)
    (his : n.intervals = .ok is) (ordered : ∀ i ∈ is, i.start.le i.finish = true) :
    ∀ i ∈ is, i.span.Whole := by
  intro i hi
  obtain ⟨id, -, hread⟩ := (n.intervals_read is his).2 i hi
  obtain ⟨start, finish⟩ := n.readInterval_times w id i hread
  have order := ordered i hi
  rw [start, finish, Number.le_int, decide_eq_true_eq] at order
  exact ⟨_, _, order, by rw [Interval.span, start, finish]⟩

section

variable (node : Node) (c : Call) (e : Lasting) (w : node.network.WellFormed)
  (is : List Interval) (his : node.network.intervals = .ok is)
  (ordered : ∀ i ∈ is, i.start.le i.finish = true) (cursor : ℤ)
  (hcursor : node.cursor = .int cursor) (q : Terms) (asks : e.Asks q)
include w his ordered hcursor asks

/-- The place is the least free time, and placing returns exactly when the command can be written
and no number of the booking is too large. The slot that is found has the place at its start. -/
theorem exists_place : ∃ s,
    IsLeast {s | q.earliest cursor ≤ s ∧ node.network.Free q.least none s} s ∧
    (Addable s → ∃ slot, slot.start = .int s ∧ node.network.nextSlot (.num (.int q.least))
        (.int (q.earliest cursor)) none = .ok (some slot)) ∧
    (∀ fault, place node c e = .error fault → fault = .tooLarge ∨ fault = .malformed) ∧
    (place node c e = .error .malformed ↔ c.isWritable = false ∧ ∃ slot,
      node.network.nextSlot (.num (.int q.least)) (.int (q.earliest cursor)) none = .ok slot) ∧
    ∀ result, place node c e = .ok result ↔
      ∃ m, book node.network c node.commands.length e (.int s) = .ok m ∧ m.Addable ∧
        result = outcome c m m.report s q.least := by
  have whole := node.network.intervals_whole w is his ordered
  obtain ⟨s, slot, least, start, search⟩ := node.network.exists_nextSlot_unlimited is his whole
    q.least (q.earliest cursor) q.positive
  have booked := fun m => book_eq_ok_iff node.network c node.commands.length e q asks s m
  have wellFormed : ∀ m, book node.network c node.commands.length e (.int s) = .ok m →
      m.WellFormed := by
    intro m hm
    obtain ⟨-, -, rfl⟩ := (booked m).mp hm
    exact node.network.arranged_wellFormed w _ q s _
  refine ⟨s, least, fun small => ⟨slot, start, search.trans (if_pos (.inl small))⟩, ?_⟩
  -- Without a slot the start is too large to be told, and then it is too large to be booked.
  by_cases found : Addable s ∨ ∃ i ∈ is, (Number.int s).lt i.finish = true
  · rw [if_pos found] at search
    rw [place_eq node c e q asks cursor hcursor s slot start search least.1.2.1]
    have faults : ∀ fault, (book node.network c node.commands.length e (.int s) >>= fun m =>
        m.check >>= fun r => .ok (outcome c m r s q.least)) = .error fault →
        fault = if c.isWritable then .tooLarge else .malformed := by
      intro fault h
      obtain h | ⟨m, hm, h⟩ := (bind_eq_error_iff _ _ _).mp h
      · exact book_fault node.network c node.commands.length e q asks s fault h
      · rw [if_pos ((booked m).mp hm).1]
        obtain h | ⟨r, -, h⟩ := (bind_eq_error_iff _ _ _).mp h
        · exact Network.check_fault m (wellFormed m hm) fault h
        · cases h
    refine ⟨fun fault h => ?_, ⟨fun h => ⟨?_, _, search⟩, ?_⟩, fun result => ⟨fun h => ?_, ?_⟩⟩
    · have fault_eq := faults fault h
      split_ifs at fault_eq
      · exact .inl fault_eq
      · exact .inr fault_eq
    · have fault_eq := faults _ h
      split_ifs at fault_eq with writable
      · simpa using writable
    · rintro ⟨unwritable, -⟩
      simp [book, unwritable]
    · obtain ⟨m, hm, h⟩ := (bind_eq_ok_iff _ _ _).mp h
      obtain ⟨r, hr, h⟩ := (bind_eq_ok_iff _ _ _).mp h
      obtain ⟨addable, rfl⟩ := (Network.check_eq_ok_iff m (wellFormed m hm) r).mp hr
      exact ⟨m, hm, addable, (Except.ok.inj h).symm⟩
    · rintro ⟨m, hm, addable, rfl⟩
      rw [hm, ok_bind, (Network.check_eq_ok_iff m (wellFormed m hm) _).mpr ⟨addable, rfl⟩]
      rfl
  · rw [if_neg found] at search
    rw [place_eq_error node c e q asks cursor hcursor _ search]
    refine ⟨fun fault h => .inl (Except.error.inj h).symm, ?_, fun result => ?_⟩
    · refine iff_of_false (fun h => by cases h) ?_
      rintro ⟨-, slot, hslot⟩
      rw [search] at hslot
      cases hslot
    · refine iff_of_false (fun h => by cases h) ?_
      rintro ⟨m, hm, -⟩
      exact found (.inl (((booked m).mp hm).2.1 s (.inl rfl)))

end

/-- The earliest free time is in time for a deadline if any free time is. -/
theorem Network.free_deadline_iff (n : Network) (d earliest s : ℤ) (deadline : Option ℤ)
    (least : IsLeast {s | earliest ≤ s ∧ n.Free d none s} s) :
    (∃ s, earliest ≤ s ∧ n.Free d deadline s) ↔ ∀ x ∈ deadline, s + d ≤ x := by
  constructor
  · rintro ⟨s', low, clear, intime⟩ x hx
    have first := least.2 ⟨low, clear, fun _ none => nomatch none⟩
    have latest := intime x hx
    omega
  · intro intime
    exact ⟨s, least.1.1, least.1.2.1, intime⟩

theorem Network.isLeast_free_deadline (n : Network) (d earliest s : ℤ) (deadline : Option ℤ)
    (least : IsLeast {s | earliest ≤ s ∧ n.Free d none s} s)
    (intime : ∀ x ∈ deadline, s + d ≤ x) :
    IsLeast {s | earliest ≤ s ∧ n.Free d deadline s} s :=
  ⟨⟨least.1.1, least.1.2.1, intime⟩,
    fun _ h => least.2 ⟨h.1, h.2.1, fun _ none => nomatch none⟩⟩

/-- A durative command is placed whenever some time from the cursor and its release on is free and
in time for its deadline, and then at the least such time. A free slot is always found, and nothing
overlaps there; only the check refuses, and only where there is no such time. What stops the search
is a number that is too large, or a command that cannot be written once a slot is found for it. -/
theorem place_earliest (node : Node) (c : Call) (e : Lasting) (w : node.network.WellFormed)
    (consistent : node.network.isConsistent = .ok true) (is : List Interval)
    (his : node.network.intervals = .ok is) (ordered : ∀ i ∈ is, i.start.le i.finish = true)
    (freshStart : startPoint (bookingName c node.commands.length) ∉ node.network.points)
    (freshEnd : endPoint (bookingName c node.commands.length) ∉ node.network.points)
    (cursor : ℤ) (hcursor : node.cursor = .int cursor) (q : Terms) (asks : e.Asks q) :
    ∃ s, IsLeast {s | q.earliest cursor ≤ s ∧ node.network.Free q.least none s} s ∧
      ((∃ result, place node c e = .ok result) ↔ c.isWritable = true ∧
        (∀ k, q.Names s k → Addable k) ∧
        ∀ m, book node.network c node.commands.length e (.int s) = .ok m → m.Addable) ∧
      (∀ fault, place node c e = .error fault → fault = .tooLarge ∨ fault = .malformed) ∧
      (place node c e = .error .malformed ↔ c.isWritable = false ∧ ∃ slot,
        node.network.nextSlot (.num (.int q.least)) (.int (q.earliest cursor)) none = .ok slot) ∧
      ∀ result, place node c e = .ok result →
        ((∃ m a, result = .ok (m, a)) ↔
          ∃ s, q.earliest cursor ≤ s ∧ node.network.Free q.least q.deadline s) ∧
        (∀ m a, result = .ok (m, a) →
          a = { command := c, start := .int s, finish := .int (s + q.least) } ∧
            IsLeast {s | q.earliest cursor ≤ s ∧ node.network.Free q.least q.deadline s} s) ∧
        (∀ reason, result = .error reason → ∃ why, reason = networkFailure c
          (c.text ++ " makes the temporal network inconsistent: " ++ why)) ∧
        (∃ slot, slot.start = .int s ∧ node.network.nextSlot (.num (.int q.least))
          (.int (q.earliest cursor)) none = .ok (some slot)) ∧
        node.network.overlapping (.int s) (.int (s + q.least)) = .ok [] := by
  obtain ⟨s, least, slot, faults, unwritten, returned⟩ :=
    exists_place node c e w is his ordered cursor hcursor q asks
  have booked := fun m => book_eq_ok_iff node.network c node.commands.length e q asks s m
  refine ⟨s, least, ?_, faults, unwritten, fun result h => ?_⟩
  · constructor
    · rintro ⟨result, h⟩
      obtain ⟨m, hm, addable, -⟩ := (returned result).mp h
      obtain ⟨writable, small, -⟩ := (booked m).mp hm
      refine ⟨writable, small, fun m' hm' => ?_⟩
      obtain rfl : m = m' := Except.ok.inj (hm.symm.trans hm')
      exact addable
    · rintro ⟨writable, small, addable⟩
      have hm := (booked _).mpr ⟨writable, small, rfl⟩
      exact ⟨_, (returned _).mpr ⟨_, hm, addable _ hm, rfl⟩⟩
  · obtain ⟨m, hm, -, rfl⟩ := (returned result).mp h
    obtain ⟨-, small, rfl⟩ := (booked m).mp hm
    have free := node.network.free_deadline_iff q.least (q.earliest cursor) s q.deadline least
    have solvable := ((node.network.isConsistent_true_iff w).mp consistent).2
    have released := (q.released_of_earliest_le cursor s least.1.1).2
    have decided := (Network.reason_eq_none_iff _ (node.network.arranged_wellFormed w
      (bookingName c node.commands.length) q s [("command", .str c.text)])).trans
      (node.network.arranged_solvable_iff w _ q s _ freshStart freshEnd solvable released)
    rw [free, ← decided, outcome]
    cases reason : (node.network.arranged (bookingName c node.commands.length) q s
        [("command", .str c.text)]).report.reason with
    | none =>
      have least' := node.network.isLeast_free_deadline _ _ s q.deadline least (decided.mp reason)
      refine ⟨iff_of_true ⟨_, _, rfl⟩ rfl, ?_, ?_, slot (small s (.inl rfl)), least.1.2.1⟩
      · rintro m a ⟨⟩
        exact ⟨rfl, least'⟩
      · rintro r ⟨⟩
    | some why =>
      refine ⟨iff_of_false ?_ ?_, ?_, ?_, slot (small s (.inl rfl)), least.1.2.1⟩
      · rintro ⟨m, a, ⟨⟩⟩
      · rintro ⟨⟩
      · rintro m a ⟨⟩
      · rintro r ⟨⟩
        exact ⟨why, rfl⟩

/-- The network and the action of a place whose times are known. -/
theorem exists_placed (node : Node) (c : Call) (e : Lasting) (start finish : Number)
    (times : (place node c e).toOption.map (fun result => result.toOption.map fun placed =>
      (placed.2.start, placed.2.finish)) = some (some (start, finish))) :
    ∃ m a, place node c e = .ok (.ok (m, a)) ∧ (a.start, a.finish) = (start, finish) := by
  obtain ⟨result, h, times⟩ := Option.map_eq_some_iff.mp times
  obtain ⟨⟨m, a⟩, hplaced, times⟩ := Option.map_eq_some_iff.mp times
  obtain rfl := toOption_eq_some_iff.mp hplaced
  exact ⟨m, a, toOption_eq_some_iff.mp h, Option.some.inj times⟩

/-! ### Unloading at a dock

The dock is taken for a while. What is unloaded there is released before that and has to wait. -/

namespace Ferry

def stay : IntervalSpec :=
  { id := "stay", duration := .int 4, start := .int 3, finish := .null, metadata := .null }

def dock : Network :=
  (((Network.standard.addPoint "stay_start").addPoint "stay_end").addBound "stay_start" "stay_end"
    (.exactly (.int 4))).addBound originPoint "stay_start" (.exactly (.int 3))

theorem dock_wellFormed : dock.WellFormed := by
  have reachable : dock.Reachable := by
    refine .write Network.standard dock (.interval stay) (.empty .second .medium false 4) ?_ rfl
    exact ⟨.ofInt 4, fun parts h => (by cases h), .ofInt 3, fun x h => (by cases h)⟩
  exact reachable.wellFormed

def node (network : Network) (cursor : ℤ) : Node :=
  { state := State.empty, pending := [], network, commands := [], schedule := [],
    cursor := .int cursor }

def unload : Call := ⟨.str "unload", []⟩

def terms : Terms :=
  { least := 5, most := ⊤, release := some 2, deadline := some 20, positive := by decide,
    ordered := le_top }

def effect : Lasting :=
  { state := State.empty, duration := .tuple [.int 5, .float .posInf], deadline := .int 20,
    release := .int 2 }

theorem unloaded :
    dock.isConsistent = .ok true ∧ effect.Asks terms ∧
    (∃ is, dock.intervals = .ok is ∧ ∀ i ∈ is, i.start.le i.finish = true) ∧
    IsLeast {s | terms.earliest 1 ≤ s ∧ dock.Free 5 (some 20) s} 7 ∧
    ∃ m, place (node dock 1) unload effect =
      .ok (.ok (m, { command := unload, start := .int 7, finish := .int 12 })) := by
  have asks : effect.Asks terms := ⟨rfl, rfl, rfl⟩
  have consistent : dock.isConsistent = .ok true := rfl
  have read : (dock.intervals.toOption.map fun is => is.map Interval.span) =
      some [⟨.int 3, .int 7⟩] := by decide +kernel
  obtain ⟨is, his, spans⟩ := Option.map_eq_some_iff.mp read
  have his := toOption_eq_some_iff.mp his
  have forward : ∀ s ∈ is.map Interval.span, s.start.le s.finish = true := by
    rw [spans]
    decide +kernel
  have ordered := List.forall_mem_map.mp forward
  obtain ⟨m, a, h, times⟩ := exists_placed (node dock 1) unload effect (.int 7) (.int 12)
    (by decide +kernel)
  obtain ⟨s, -, -, -, -, placed⟩ := place_earliest (node dock 1) unload effect dock_wellFormed
    consistent is his ordered (by decide +kernel) (by decide +kernel) 1 rfl terms asks
  obtain ⟨-, succeeds, -⟩ := placed _ h
  obtain ⟨rfl, least⟩ := succeeds m a rfl
  cases times
  exact ⟨consistent, asks, ⟨is, his, ordered⟩, least, m, h⟩

end Ferry

/-! ### Between hours

After a firing that ends at no integer a command begins there, and a release beyond the largest
binary64 stops the search. -/

namespace Kiln

def node (network : Network) : Node := Ferry.node network 0

def glaze : Call := ⟨.str "glaze", []⟩

def effect (release : Option ℤ) : Lasting :=
  { state := State.empty, duration := .int 1, deadline := .null,
    release := release.elim .null .int }

def terms (release : Option ℤ) : Terms :=
  { least := 1, most := (1 : ℤ), release, deadline := none, positive := by decide,
    ordered := le_rfl }

def glazing : Action :=
  { command := glaze, start := .float (.finite (5 / 2)), finish := .float (.finite (7 / 2)) }

theorem placed_between :
    ∃ m, place (node network) glaze (effect none) = .ok (.ok (m, glazing)) := by
  obtain ⟨m, a, h, times⟩ := exists_placed (node network) glaze (effect none)
    (.float (.finite (5 / 2))) (.float (.finite (7 / 2))) (by decide +kernel)
  obtain ⟨_, _, _, _, _, -, -, -, -, -, -, -, -, -, command, -⟩ := place_eq_ok _ _ _ m a h
  obtain ⟨call, start, finish⟩ := a
  cases command
  cases times
  exact ⟨m, h⟩

theorem glazed_between :
    (∀ release, (effect release).Asks (terms release)) ∧
    ((∃ is, network.intervals = .ok is ∧ ∀ i ∈ is, i.start.le i.finish = true) ∧
      network.isConsistent = .ok true ∧ network.points = ["fire_end", "fire_start", "origin"] ∧
      IsLeast {s | (terms none).earliest 0 ≤ s ∧ network.Free 1 none s} 3 ∧
      ∃ m, place (node network) glaze (effect none) = .ok (.ok (m, glazing))) ∧
    Network.standard.isConsistent = .ok true ∧ Network.standard.Free 1 none (Nat.pow 2 1024 : ℕ) ∧
      place (node .standard) glaze (effect (some (Nat.pow 2 1024 : ℕ))) = .error .tooLarge := by
  refine ⟨fun _ => ⟨rfl, rfl, rfl⟩,
    ⟨ordered, ?_, by decide +kernel, isLeast_free, placed_between⟩, ?_, free_late,
    stopsTooLarge_iff.mp (by decide +kernel)⟩
  · exact toOption_eq_some_iff.mp (by decide +kernel)
  · exact toOption_eq_some_iff.mp (by decide +kernel)

end Kiln

end Chronoplan
