import Chronoplan.Planner.Execution
import Chronoplan.Proofs.Network.Bookings

/-!
# A durative command in its place

When the times of a durative command are integers, `place` gives it a span that begins no earlier
than the latest action ends and than it is released, has its least duration, and ends by its
deadline. The span keeps clear of all intervals, and the network with its booking is consistent.
-/

set_option autoImplicit false

namespace Chronoplan

/-- The duration is an integer at the least, and other times are integers or infinite. -/
structure Lasting.Whole (e : Lasting) : Prop where
  duration : ∃ (lo : ℤ) (hi : Value), durationParts e.duration = [.int lo, hi] ∧ hi.Integral
  deadline : e.deadline.Integral
  release : e.release.Integral

/-- An action keeps the times of its command: it takes the least duration, begins no earlier than
at its release and ends no later than at its deadline. -/
structure Timely (a : Action) (e : Lasting) : Prop where
  span : ∃ s lo : ℤ, 0 ≤ s ∧ 0 ≤ lo ∧ leastDuration e.duration = .ok (.int lo) ∧
    a.start = .int s ∧ a.finish = .int (s + lo)
  release : ∀ x, e.release = .num x → x.le a.start = true
  deadline : ∀ x, e.deadline = .num x → a.finish.le x = true

/-! ### Numbers below and above integers -/

theorem Number.Integral.le_int {x : Number} (hx : x.Integral) {k m : ℤ}
    (h : x.le (.int k) = true) (hkm : k ≤ m) : x.le (.int m) = true := by
  obtain rfl | rfl | ⟨j, rfl⟩ := hx.cases
  · cases h
  · rfl
  · simp only [Number.le_int, decide_eq_true_eq] at h ⊢
    omega

theorem Number.Integral.int_le {x : Number} (hx : x.Integral) {k m : ℤ}
    (h : (Number.int m).le x = true) (hkm : k ≤ m) : (Number.int k).le x = true := by
  obtain rfl | rfl | ⟨j, rfl⟩ := hx.cases
  · rfl
  · cases h
  · simp only [Number.le_int, decide_eq_true_eq] at h ⊢
    omega

/-! ### What bounds a booking -/

theorem Network.limit_cases (n m : Network) (p : String) (given : Value)
    (bound : Value → Value × Value) (h : n.limit p given bound = .ok m) :
    given = .null ∧ m = n ∨ ∃ b, Bound.ofValues (bound given).1 (bound given).2 = .ok b ∧
      m = n.addBound originPoint p b := by
  unfold Network.limit at h
  split at h
  · cases h
    exact .inl ⟨rfl, rfl⟩
  · obtain ⟨b, hb, h⟩ := (bind_eq_ok_iff _ _ _).mp h
    cases h
    exact .inr ⟨b, hb, rfl⟩

theorem negInf_integral : (Value.num .negInf).Integral := by
  rintro x ⟨⟩
  exact ⟨⊤, .inr rfl⟩

theorem posInf_integral : (Value.num .posInf).Integral := by
  rintro x ⟨⟩
  exact ⟨⊤, .inl rfl⟩

/-- A deadline moves no interval, and the end of a solution keeps it. -/
theorem limit_deadline (n m m' : Network) (id : String) (s lo : ℤ) (deadline : Value)
    (hd : deadline.Integral) (hm : Network.Booked n m id s lo)
    (h : m.limit (endPoint id) deadline (fun d => (.num .negInf, d)) = .ok m') :
    Network.Booked n m' id s lo ∧ ∀ t, m'.Solves t → m.Solves t ∧
      ∀ x, deadline = .num x → (Number.int (t (endPoint id) - t originPoint)).le x = true := by
  obtain ⟨rfl, rfl⟩ | ⟨b, hb, rfl⟩ := m.limit_cases m' _ _ _ h
  · exact ⟨hm, fun t ht => ⟨ht, fun x hx => by cases hx⟩⟩
  · have hbound := ofValues_integral _ _ b negInf_integral hd hb
    obtain ⟨hlo, hhi, -, -⟩ := ofValues_eq_ok _ _ b hb
    have hleast : b.least = ⊥ := by
      rw [Bound.least, ← Value.num.inj hlo]
    refine ⟨hm.limit_end b hbound hleast, fun t ht => ?_⟩
    obtain ⟨ht, hmeets⟩ := (m.solves_addBound hm.wellFormed _ _ b hbound t).mp ht
    refine ⟨ht, fun x hx => ?_⟩
    have hx : x = b.hi := Value.num.inj (hx.symm.trans hhi)
    rw [hx]
    exact (Bool.and_eq_true _ _ ▸ hmeets : _ ∧ _).2

/-- A release time before the start moves no interval. -/
theorem limit_release (n m m' : Network) (id : String) (s lo : ℤ) (release : Value)
    (hr : release.Integral) (before : ∀ x, release = .num x → x.le (.int s) = true)
    (hm : Network.Booked n m id s lo)
    (h : m.limit (startPoint id) release (fun r => (r, .num .posInf)) = .ok m') :
    Network.Booked n m' id s lo ∧ ∀ t, m'.Solves t → m.Solves t := by
  obtain ⟨rfl, rfl⟩ | ⟨b, hb, rfl⟩ := m.limit_cases m' _ _ _ h
  · exact ⟨hm, fun t ht => ht⟩
  · have hbound := ofValues_integral _ _ b hr posInf_integral hb
    obtain ⟨hlo, hhi, -, -⟩ := ofValues_eq_ok _ _ b hb
    have hle := before b.lo hlo
    have hleast : b.least ≤ (s : WithBot ℤ) := by
      unfold Bound.least
      split
      · next k hk =>
        rw [hk, Number.le_int, decide_eq_true_eq] at hle
        exact WithBot.coe_le_coe.mpr hle
      · exact bot_le
    exact ⟨hm.limit_start b hbound hleast,
      fun t ht => ((m.solves_addBound hm.wellFormed _ _ b hbound t).mp ht).1⟩

/-- What booking a durative command does, and what a solution of its bounds keeps. -/
structure BooksCommand (n m : Network) (id : String) (s lo : ℤ) (deadline : Value) : Prop where
  booked : Network.Booked n m id s lo
  nonneg : 0 ≤ lo
  solves : ∀ t, m.Solves t → n.Solves t ∧ t (startPoint id) - t originPoint = s ∧
    lo ≤ t (endPoint id) - t (startPoint id) ∧
    ∀ x, deadline = .num x → (Number.int (t (endPoint id) - t originPoint)).le x = true

/-- A duration of two parts is accepted as it is, unless the first one is negative. -/
theorem durationPair_first (n : Network) (first second lo hi : Value)
    (h : n.durationPair (.tuple [first, second]) = .ok (lo, hi)) :
    first = lo ∧ second = hi ∧ first.lt (.int 0) = .ok false := by
  obtain ⟨parts, hparts, h⟩ := (bind_eq_ok_iff _ _ _).mp h
  cases hparts
  obtain ⟨below, hbelow, h⟩ := (bind_eq_ok_iff _ _ _).mp h
  cases below with
  | true => cases h
  | false =>
    cases h
    exact ⟨rfl, rfl, hbelow⟩

theorem book_booksCommand (n m : Network) (w : n.WellFormed) (c : Call) (place : ℕ) (e : Lasting)
    (s lo : ℤ) (hi : Value) (hparts : durationParts e.duration = [.int lo, hi])
    (hhi : hi.Integral) (hdeadline : e.deadline.Integral) (hrelease : e.release.Integral)
    (before : ∀ x, e.release = .num x → x.le (.int s) = true)
    (h : book n c place e (.int s) = .ok m) :
    BooksCommand n m (bookingName c place) s lo e.deadline := by
  obtain ⟨-, h⟩ := (requireWritable_bind_iff _ _ _).mp h
  obtain ⟨n₁, h₁, hlimits⟩ := (bind_eq_ok_iff _ _ _).mp h
  obtain ⟨n₂, h₂, h₃⟩ := (bind_eq_ok_iff _ _ _).mp hlimits
  obtain ⟨lo', hi', bound, hpair, hb, rfl⟩ := n.addInterval_anchored n₁ _ _ _ (.int s) h₁
  rw [hparts] at hpair
  obtain ⟨rfl, rfl, hneg⟩ := durationPair_first n _ _ lo' hi' hpair
  have hbound := ofValues_integral _ _ bound (.ofInt lo) hhi hb
  obtain ⟨hlo, -, -, -⟩ := ofValues_eq_ok _ _ bound hb
  have hlo : bound.lo = .int lo := (Value.num.inj hlo).symm
  have hleast : bound.least = lo := by rw [Bound.least, hlo]
  have nonneg : 0 ≤ lo := by
    have := Except.ok.inj hneg
    rw [Number.lt_int, decide_eq_false_iff_not] at this
    omega
  have anchored := n.anchored_booked w (bookingName c place) bound hbound s lo hleast
    [("command", .str c.text)]
  obtain ⟨limited, hsolves₂⟩ := limit_deadline n _ n₂ _ s lo e.deadline hdeadline anchored h₂
  obtain ⟨booked, hsolves⟩ := limit_release n n₂ m _ s lo e.release hrelease before limited h₃
  refine ⟨booked, nonneg, fun t ht => ?_⟩
  obtain ⟨ht, hend⟩ := hsolves₂ t (hsolves t ht)
  obtain ⟨ht, hspan, hstart⟩ := (n.solves_anchored w _ bound hbound s _ t).mp ht
  refine ⟨ht, hstart, ?_, hend⟩
  have := (Bool.and_eq_true _ _ ▸ hspan : _ ∧ _).1
  rw [hlo, Number.le_int, decide_eq_true_eq] at this
  exact this

/-! ### The place -/

/-- All that a successful placing consists of. -/
theorem place_eq_ok (node : Node) (c : Call) (e : Lasting) (network : Network) (a : Action)
    (h : place node c e = .ok (.ok (network, a))) :
    ∃ duration earliest slot x r, leastDuration e.duration = .ok duration ∧
      earliestStart node.cursor e.release = .ok earliest ∧
      node.network.nextSlot duration earliest none = .ok (some slot) ∧
      duration.number? = some x ∧ addNumbers slot.start x = .ok a.finish ∧
      node.network.overlapping slot.start a.finish = .ok [] ∧
      book node.network c node.commands.length e slot.start = .ok network ∧
      network.check = .ok r ∧ r.reason = none ∧ a.command = c ∧ a.start = slot.start := by
  obtain ⟨duration, hduration, h⟩ := (bind_eq_ok_iff _ _ _).mp h
  obtain ⟨earliest, hearliest, h⟩ := (bind_eq_ok_iff _ _ _).mp h
  obtain ⟨found, hslot, h⟩ := (bind_eq_ok_iff _ _ _).mp h
  cases found with
  | none =>
    obtain ⟨-, h⟩ := (requireWritable_bind_iff _ _ _).mp h
    cases h
  | some slot =>
    obtain ⟨x, hx, h⟩ := (bind_eq_ok_iff _ _ _).mp h
    obtain ⟨finish, hfinish, h⟩ := (bind_eq_ok_iff _ _ _).mp h
    obtain ⟨conflicts, hconflicts, h⟩ := (bind_eq_ok_iff _ _ _).mp h
    cases conflicts with
    | cons i rest =>
      obtain ⟨-, h⟩ := (requireWritable_bind_iff _ _ _).mp h
      cases h
    | nil =>
      obtain ⟨booked, hbooked, h⟩ := (bind_eq_ok_iff _ _ _).mp h
      obtain ⟨r, hr, h⟩ := (bind_eq_ok_iff _ _ _).mp h
      cases hreason : r.reason with
      | some reason =>
        simp only [hreason] at h
        cases h
      | none =>
        simp only [hreason] at h
        cases h
        exact ⟨duration, earliest, slot, x, r, hduration, hearliest, hslot,
          (orFault_eq_ok_iff _ _ _).mp hx, hfinish, hconflicts, hbooked, hr, hreason, rfl, rfl⟩

/-- A command is written into its booking. -/
theorem place_writable (node : Node) (c : Call) (e : Lasting) (network : Network) (a : Action)
    (h : place node c e = .ok (.ok (network, a))) : c.isWritable = true := by
  obtain ⟨-, -, slot, -, -, -, -, -, -, -, -, hbook, -⟩ := place_eq_ok node c e network a h
  exact ((requireWritable_bind_iff _ _ _).mp hbook).1

/-- A place that is found is looked for from an integer on: that of the cursor or of a release
time behind it. -/
theorem earliestStart_int (n : Network) (cursor : ℤ) (release duration : Value)
    (hrelease : release.Integral) (earliest : Number) (slot : Slot)
    (h : earliestStart (.int cursor) release = .ok earliest)
    (hslot : n.nextSlot duration earliest none = .ok (some slot)) :
    ∃ k : ℤ, earliest = .int k ∧ cursor ≤ k ∧ ∀ x, release = .num x → x.le (.int k) = true := by
  unfold earliestStart at h
  split at h
  · cases h
    exact ⟨cursor, rfl, le_rfl, fun x hx => by cases hx⟩
  · next x =>
    cases h
    obtain rfl | rfl | ⟨m, rfl⟩ := (hrelease x rfl).cases
    · cases hslot
    · refine ⟨cursor, rfl, le_rfl, ?_⟩
      rintro x ⟨⟩
      rfl
    · rw [max_int]
      refine ⟨max cursor m, rfl, le_max_left cursor m, ?_⟩
      rintro x ⟨⟩
      simp
  · cases h

/-- What a place that is found is like. -/
structure Placed (n m : Network) (cursor : ℤ) (id : String) (c : Call) (e : Lasting) (a : Action) :
    Prop where
  command : a.command = c
  timely : Timely a e
  span : ∃ s lo : ℤ, a.start = .int s ∧ a.finish = .int (s + lo) ∧ cursor ≤ s ∧ 0 ≤ lo ∧
    Network.Booked n m id s lo ∧ n.overlapping a.start a.finish = .ok []
  solvable : ∃ t, m.Solves t
  consistent : m.isConsistent = .ok true

theorem place_placed (node : Node) (c : Call) (e : Lasting) (m : Network) (a : Action)
    (w : node.network.WellFormed) (cursor : ℤ) (hcursor : node.cursor = .int cursor)
    (nonneg : 0 ≤ cursor) (whole : e.Whole) (h : place node c e = .ok (.ok (m, a))) :
    Placed node.network m cursor (bookingName c node.commands.length) c e a := by
  obtain ⟨duration, earliest, slot, x, r, hduration, hearliest, hslot, hx, hfinish, hclear, hbook,
    hr, hreason, hcommand, hstart⟩ := place_eq_ok node c e m a h
  obtain ⟨lo, hi, hparts, hhi⟩ := whole.duration
  have hleast : leastDuration e.duration = .ok (.int lo) := by rw [leastDuration, hparts]
  rw [hleast] at hduration
  cases hduration
  cases hx
  rw [hcursor] at hearliest
  obtain ⟨k, rfl, hk, hrelease⟩ :=
    earliestStart_int _ cursor e.release _ whole.release earliest slot hearliest hslot
  obtain ⟨s, hs, hks⟩ := node.network.nextSlot_start w _ k slot hslot
  rw [hs] at hstart hfinish hclear hbook
  have hfinish : a.finish = .int (s + lo) := (Except.ok.inj hfinish).symm
  have before : ∀ x, e.release = .num x → x.le (.int s) = true := fun x hx =>
    (whole.release x hx).le_int (hrelease x hx) hks
  have books := book_booksCommand _ m w c _ e s lo hi hparts hhi whole.deadline whole.release
    before hbook
  obtain ⟨consistent, t, ht⟩ := m.check_consistent books.booked.wellFormed r hr hreason
  obtain ⟨-, hstarts, hlasts, hends⟩ := books.solves t ht
  refine ⟨hcommand, ⟨⟨s, lo, ?_, books.nonneg, hleast, hstart, hfinish⟩, ?_, ?_⟩,
    ⟨s, lo, hstart, hfinish, ?_, books.nonneg, books.booked, ?_⟩, ⟨t, ht⟩, consistent⟩
  · omega
  · intro x hx
    rw [hstart]
    exact before x hx
  · -- some solution ends the action by its deadline, and none ends it before its least duration
    intro x hx
    rw [hfinish]
    exact (whole.deadline x hx).int_le (hends x hx) (by omega)
  · omega
  · rw [hstart]
    exact hclear

end Chronoplan
