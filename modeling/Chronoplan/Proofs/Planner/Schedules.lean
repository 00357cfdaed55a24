import Chronoplan.Proofs.Planner.Placing
import Chronoplan.Proofs.Planner.Rounds

/-!
# The schedule of a run

Over all rounds of a run the schedule stays in order and clear of the intervals of the base
network. A search adds actions behind the latest one, and carrying out a plan keeps an initial
part of them, so both lead from one node in order to another.
-/

set_option autoImplicit false

namespace Chronoplan

/-- The plan of a round has an action at a place: the command there, applied by itself to where
the commands before it lead, lasts. -/
def PlannedAt (d : Domain) (round : Round) (i : ℕ) (a : Action) (e : Lasting) : Prop :=
  ∃ node f network, round.before.executed.length ≤ i ∧
    round.found.commands[i]? = some a.command ∧
    replay d (round.before.root [])
      ((round.found.commands.take i).drop round.before.executed.length) = .ok (some node) ∧
    Domain.registered? a.command.name d.commands = .ok (some f) ∧
    f.run node.state a.command.args = .ok (.lasting e) ∧
    place node a.command e = .ok (.ok (network, a))

theorem enact_cases (d : Domain) (node n : Node) (c : Call) (h : enact d node c = .ok (some n)) :
    ∃ f, Domain.registered? c.name d.commands = .ok (some f) ∧
      ((∃ s, f.run node.state c.args = .ok (.state s) ∧
          n = { node with state := s, commands := node.commands ++ [c] }) ∨
        ∃ e network a, f.run node.state c.args = .ok (.lasting e) ∧
          place node c e = .ok (.ok (network, a)) ∧
          n = { node with
            state := e.state
            commands := node.commands ++ [c]
            network
            schedule := node.schedule ++ [a]
            cursor := a.finish }) := by
  obtain ⟨found, hfound, h⟩ := (bind_eq_ok_iff _ _ _).mp h
  cases found with
  | none => cases h
  | some f =>
    refine ⟨f, hfound, ?_⟩
    obtain ⟨outcome, hrun, h⟩ := (bind_eq_ok_iff _ _ _).mp h
    cases outcome with
    | state s =>
      cases h
      exact .inl ⟨s, hrun, rfl⟩
    | lasting e =>
      obtain ⟨result, hplace, h⟩ := (bind_eq_ok_iff _ _ _).mp h
      cases result with
      | error r => cases h
      | ok placed =>
        cases h
        exact .inr ⟨e, placed.1, placed.2, hrun, hplace, rfl⟩
    | notApplicable => cases h
    | refused reason => cases h
    | items entries asTuple => cases h
    | value v => cases h

/-! ### Nodes in order -/

/-- An action keeps clear of the intervals of a network. -/
structure Sits (base : Network) (a : Action) : Prop where
  span : ∃ s lo : ℤ, 0 ≤ s ∧ 0 ≤ lo ∧ a.start = .int s ∧ a.finish = .int (s + lo)
  clear : base.overlapping a.start a.finish = .ok []

/-- One action is over when the other begins. -/
def Action.Precedes (a b : Action) : Prop := a.finish.le b.start = true

/-- A node whose schedule is in order, and whose network goes on from a base network. -/
structure InOrder (base : Network) (node : Node) : Prop where
  wellFormed : node.network.WellFormed
  points : ∀ p ∈ base.points, p ∈ node.network.points
  cursor : ∃ k : ℤ, node.cursor = .int k ∧ 0 ≤ k ∧
    (∀ a ∈ node.schedule, a.finish.le (.int k) = true) ∧
    ∀ id ∈ base.intervalIds, Network.Stays base node.network id k
  sits : ∀ a ∈ node.schedule, Sits base a
  ordered : node.schedule.Pairwise Action.Precedes
  untouched : node.schedule = [] → node.network = base

section InOrder

variable {base : Network} (w : base.WellFormed)
include w

theorem inOrder_start (s : State) : InOrder base ((Live.start s base).root []) := by
  constructor
  · exact w
  · exact fun _ hp => hp
  · exact ⟨0, rfl, le_rfl, by simp [Live.start, Live.root], fun _ _ => .inr ⟨le_rfl, le_rfl⟩⟩
  · simp [Live.start, Live.root]
  · exact .nil
  · exact fun _ => rfl

/-- Where the intervals of the network can be read, so can those of the base network. -/
theorem InOrder.base_intervals {node : Node} (h : InOrder base node) (is : List Interval)
    (his : node.network.intervals = .ok is) : ∃ is, base.intervals = .ok is := by
  cases hschedule : node.schedule with
  | nil =>
    rw [h.untouched hschedule] at his
    exact ⟨is, his⟩
  | cons a rest =>
    have sits := h.sits a (by rw [hschedule]; exact List.mem_cons_self)
    obtain ⟨s, lo, -, -, hs, hf⟩ := sits.span
    have clear := sits.clear
    rw [hs, hf] at clear
    exact ((base.overlapping_eq_nil_iff w _ _).mp clear).1

/-- A further action behind the cursor leaves a node in order. -/
theorem InOrder.booked {node next : Node} (h : InOrder base node) (a : Action)
    (sits : Sits base a) (id : String) (s lo : ℤ) (hs : a.start = .int s)
    (hf : a.finish = .int (s + lo)) (hlo : 0 ≤ lo)
    (hbooked : Network.Booked node.network next.network id s lo)
    (behind : node.cursor.le a.start = true)
    (hschedule : next.schedule = node.schedule ++ [a]) (hcursor : next.cursor = a.finish) :
    InOrder base next := by
  obtain ⟨k, hk, hnonneg, hbefore, hstays⟩ := h.cursor
  have hks : k ≤ s := by simpa [hk, hs] using behind
  have clear := sits.clear
  rw [hs, hf, base.overlapping_eq_nil_iff w] at clear
  constructor
  · exact hbooked.wellFormed
  · intro p hp
    exact (hbooked.points p).mpr (.inl (h.points p hp))
  · refine ⟨s + lo, hcursor.trans hf, by omega, fun b hb => ?_, fun other hother => ?_⟩
    · rw [hschedule, List.mem_append, List.mem_singleton] at hb
      rcases hb with hb | rfl
      · obtain ⟨t, l, -, -, -, hfb⟩ := (h.sits b hb).span
        have hbk := hbefore b hb
        rw [hfb, Number.le_int, decide_eq_true_eq] at hbk ⊢
        omega
      · simp [hf]
    · exact (hstays other hother).booked hbooked hlo (by omega) (by omega) (by omega)
        (clear.2 other hother)
  · intro b hb
    rw [hschedule, List.mem_append, List.mem_singleton] at hb
    rcases hb with hb | rfl
    · exact h.sits b hb
    · exact sits
  · rw [hschedule, List.pairwise_append]
    refine ⟨h.ordered, List.pairwise_singleton _ _, fun b hb c hc => ?_⟩
    cases List.mem_singleton.mp hc
    obtain ⟨t, l, -, -, -, hfb⟩ := (h.sits b hb).span
    have hbk := hbefore b hb
    rw [Action.Precedes, hfb, hs]
    rw [hfb, Number.le_int, decide_eq_true_eq] at hbk
    simp only [Number.le_int, decide_eq_true_eq]
    omega
  · intro hnil
    rw [hschedule] at hnil
    simp at hnil

/-- A command that is given a place keeps its times, sits clear and leaves the node in order. -/
theorem InOrder.place {node : Node} (h : InOrder base node) (c : Call) (e : Lasting)
    (whole : e.Whole) (m : Network) (a : Action) (hp : place node c e = .ok (.ok (m, a))) :
    a.command = c ∧ Timely a e ∧
      InOrder base { node with
        state := e.state
        commands := node.commands ++ [c]
        network := m
        schedule := node.schedule ++ [a]
        cursor := a.finish } ∧
      m.isConsistent = .ok true ∧ ∃ t, m.Solves t := by
  obtain ⟨k, hk, hnonneg, -, hstays⟩ := h.cursor
  have placed := place_placed node c e m a h.wellFormed k hk hnonneg whole hp
  obtain ⟨s, lo, hs, hf, hks, hlo, hbooked, clear⟩ := placed.span
  rw [hs, hf, node.network.overlapping_eq_nil_iff h.wellFormed] at clear
  obtain ⟨⟨is, his⟩, clear⟩ := clear
  have sits : Sits base a := by
    refine ⟨⟨s, lo, by omega, hlo, hs, hf⟩, ?_⟩
    rw [hs, hf, base.overlapping_eq_nil_iff w]
    refine ⟨h.base_intervals w is his, fun id hid => (hstays id hid).clear hks ?_⟩
    exact clear id (base.intervalIds_mono node.network h.points id hid)
  refine ⟨placed.command, placed.timely, ?_, placed.consistent, placed.solvable⟩
  refine h.booked w a sits _ s lo hs hf hlo hbooked ?_ rfl rfl
  rw [hk, hs, Number.le_int, decide_eq_true_eq]
  exact hks

end InOrder

/-! ### In a search -/

/-- What a search leads to when it begins in order: every action is from before or was planned,
and the network is as before or has been checked, as it is when something was planned. -/
structure Advanced (d : Domain) (base : Network) (round : Round) (node : Node) : Prop where
  inOrder : InOrder base node
  before : round.before.schedule <+: node.schedule
  actions : ∀ a ∈ node.schedule,
    a ∈ round.before.schedule ∨ ∃ i e, PlannedAt d round i a e ∧ Timely a e
  network : node.schedule = round.before.schedule ∧ node.network = round.before.network ∨
    node.network.isConsistent = .ok true ∧ ∃ t, node.network.Solves t

theorem place_command (node : Node) (c : Call) (e : Lasting) (m : Network) (a : Action)
    (h : place node c e = .ok (.ok (m, a))) : a.command = c := by
  obtain ⟨-, -, -, -, -, -, -, -, -, -, -, -, -, -, hcommand, -⟩ := place_eq_ok node c e m a h
  exact hcommand

theorem plannedAt_of_replay (d : Domain) (round : Round) (front rest : List Call) (c : Call)
    (node : Node) (f : Callback (List Value)) (e : Lasting) (m : Network) (a : Action)
    (hcommands : round.found.commands = round.before.executed ++ (front ++ c :: rest))
    (hfront : replay d (round.before.root []) front = .ok (some node))
    (hf : Domain.registered? c.name d.commands = .ok (some f))
    (hrun : f.run node.state c.args = .ok (.lasting e))
    (hplace : place node c e = .ok (.ok (m, a))) :
    PlannedAt d round (round.before.executed.length + front.length) a e := by
  have hcommand := place_command node c e m a hplace
  subst hcommand
  refine ⟨node, f, m, Nat.le_add_right _ _, ?_, ?_, hf, hrun, hplace⟩
  · rw [hcommands, ← List.append_assoc, ← List.length_append]
    simp
  · rw [hcommands, ← List.append_assoc, List.take_left' List.length_append, List.drop_left' rfl]
    exact hfront

theorem round_advanced (d : Domain) (base : Network) (w : base.WellFormed) (round : Round)
    (start : InOrder base (round.before.root []))
    (found : Extends d (round.before.root []) round.found)
    (whole : ∀ i a e, PlannedAt d round i a e → e.Whole) :
    Advanced d base round round.found.owned := by
  obtain ⟨added, hadded, hreplay⟩ := found
  refine replay_induction (Advanced d base round) d _ _ added hreplay ?_ ?_
  · exact ⟨start, List.prefix_rfl, fun a ha => .inl ha, .inl ⟨rfl, rfl⟩⟩
  · intro front c rest node next hsplit hfront henact hnode
    obtain ⟨f, hf, ⟨s, hrun, rfl⟩ | ⟨e, m, a, hrun, hplace, rfl⟩⟩ := enact_cases d node next c henact
    · obtain ⟨⟨h₁, h₂, h₃, h₄, h₅, h₆⟩, hbefore, hactions, hnetwork⟩ := hnode
      exact ⟨⟨h₁, h₂, h₃, h₄, h₅, h₆⟩, hbefore, hactions, hnetwork⟩
    · have planned := plannedAt_of_replay d round front rest c node f e m a
        (hadded.trans (congrArg _ hsplit)) hfront hf hrun hplace
      obtain ⟨-, timely, inOrder, hchecked⟩ :=
        hnode.inOrder.place w c e (whole _ a e planned) m a hplace
      refine ⟨inOrder, hnode.before.trans (List.prefix_append _ _), fun b hb => ?_, .inr hchecked⟩
      rcases List.mem_append.mp hb with hb | hb
      · exact hnode.actions b hb
      · cases List.mem_singleton.mp hb
        exact .inr ⟨_, e, planned, timely⟩

/-! ### While a plan is carried out -/

/-- What holds of the live values and of the commands and planned actions that are left stays so
while commands are carried out, if it does with an action kept and without one. -/
theorem carryOut_induction (P : List Call → List Action → Live → Prop) (d : Domain)
    (commands : List Call) (planned : List Action) (l l' : Live) (failed : Option Call)
    (trials : List Trial)
    (h : Live.carryOutRecorded d commands planned l = .ok ((l', failed), trials))
    (start : P commands planned l)
    (pass : ∀ c rest planned l s, P (c :: rest) planned l →
      (∀ a ∈ planned.head?, a.command.same c = false) → P rest planned (l.after c s))
    (keep : ∀ c rest a planned l kept s, P (c :: rest) (a :: planned) l →
      a.command.same c = true → l.keep c a = .ok kept → P rest planned (kept.after c s)) :
    ∃ rest left, P rest left l' := by
  induction commands generalizing planned l trials with
  | nil =>
    cases h
    exact ⟨[], planned, start⟩
  | cons c rest ih =>
    obtain ⟨outcome, -, ⟨-, rfl, rfl, rfl⟩ | ⟨s, kept, later, -, hkept, hlater, rfl⟩⟩ :=
      Live.carryOutRecorded_cons d c rest planned l l' failed trials h
    · exact ⟨c :: rest, planned, start⟩
    · refine ih _ _ later hlater ?_
      cases planned with
      | nil =>
        cases hkept
        exact pass c rest [] l s start (by simp)
      | cons a planned =>
        by_cases same : a.command.same c = true
        · simp only [Live.nextAction, same, if_true] at hkept ⊢
          exact keep c rest a planned l kept s start same hkept
        · simp only [Live.nextAction, same] at hkept ⊢
          cases hkept
          exact pass c rest (a :: planned) l s start (by simpa using same)

/-- An action whose times are integers is kept with exactly these times. -/
theorem Live.keep_anchored (l kept : Live) (c : Call) (a : Action) (s lo : ℤ)
    (hs : a.start = .int s) (hf : a.finish = .int (s + lo)) (h : l.keep c a = .ok kept) :
    kept = { l with
      network := l.network.anchored (bookingName c l.executed.length) (.exactly (.int lo)) (.int s)
        [("command", .str c.text)]
      schedule := l.schedule ++ [a] } := by
  obtain ⟨duration, hduration, h⟩ := (bind_eq_ok_iff _ _ _).mp h
  obtain ⟨network, hnetwork, h⟩ := (bind_eq_ok_iff _ _ _).mp h
  cases h
  rw [hs, hf] at hduration
  have hlength : duration = .int lo := by
    cases hduration
    exact congrArg Number.int (by omega)
  rw [hs, hlength] at hnetwork
  obtain ⟨first, second, bound, hpair, hb, rfl⟩ :=
    l.network.addInterval_anchored network _ _ _ (.int s) hnetwork
  obtain ⟨rfl, rfl, -⟩ := durationPair_first l.network (.int lo) (.int lo) first second hpair
  rw [Bound.ofValues_exactly (.int lo) bound hb]

/-- The live values follow a plan with a given schedule: what is kept and what is left of it make
up the whole. -/
structure Follows (base : Network) (whole : List Action) (l : Live) (planned : List Action) :
    Prop where
  inOrder : InOrder base (l.root [])
  schedule : l.schedule ++ planned = whole

/-- The next action of a schedule in order begins behind the cursor. -/
theorem Follows.behind {base : Network} {whole planned : List Action} {l : Live} {a : Action}
    (h : Follows base whole l (a :: planned)) (sits : Sits base a)
    (ordered : whole.Pairwise Action.Precedes) : (l.root []).cursor.le a.start = true := by
  obtain ⟨s, lo, hnonneg, -, hs, -⟩ := sits.span
  rw [← h.schedule] at ordered
  cases hlast : l.schedule.getLast? with
  | none =>
    simp only [Live.root, hlast, hs, Number.le_int, decide_eq_true_eq]
    exact hnonneg
  | some b =>
    simp only [Live.root, hlast]
    exact (List.pairwise_append.mp ordered).2.2 b (List.mem_of_getLast? hlast) a
      List.mem_cons_self

theorem Follows.pass {base : Network} {whole planned : List Action} {l : Live}
    (h : Follows base whole l planned) (c : Call) (s : State) :
    Follows base whole (l.after c s) planned := by
  obtain ⟨⟨h₁, h₂, h₃, h₄, h₅, h₆⟩, hschedule⟩ := h
  exact ⟨⟨h₁, h₂, h₃, h₄, h₅, h₆⟩, hschedule⟩

theorem Follows.keep {base : Network} (w : base.WellFormed) {whole planned : List Action}
    {l kept : Live} {a : Action} (h : Follows base whole l (a :: planned)) (sits : Sits base a)
    (ordered : whole.Pairwise Action.Precedes) (c : Call) (s : State)
    (hkept : l.keep c a = .ok kept) : Follows base whole (kept.after c s) planned := by
  have behind := h.behind sits ordered
  obtain ⟨start, lo, hnonneg, hlo, hs, hf⟩ := sits.span
  have hkept := l.keep_anchored kept c a start lo hs hf hkept
  have booked := l.network.anchored_booked h.inOrder.wellFormed (bookingName c l.executed.length)
    _ (Bound.exactly_integral lo) start lo (Bound.exactly_least lo) [("command", .str c.text)]
  subst hkept
  constructor
  · exact h.inOrder.booked w a sits _ start lo hs hf hlo booked behind rfl
      (by simp [Live.root, Live.after])
  · rw [← h.schedule]
    simp [Live.after]

theorem carryOut_follows {base : Network} (w : base.WellFormed) (d : Domain)
    (whole : List Action) (hsits : ∀ a ∈ whole, Sits base a)
    (ordered : whole.Pairwise Action.Precedes) (commands : List Call) (planned : List Action)
    (l l' : Live) (failed : Option Call) (trials : List Trial) (hl : Follows base whole l planned)
    (h : Live.carryOutRecorded d commands planned l = .ok ((l', failed), trials)) :
    ∃ left, Follows base whole l' left := by
  suffices h : ∃ (_ : List Call) (left : List Action), Follows base whole l' left by
    obtain ⟨-, left, hleft⟩ := h
    exact ⟨left, hleft⟩
  refine carryOut_induction (fun _ planned l => Follows base whole l planned) d commands planned l
    l' failed trials h hl ?_ ?_
  · exact fun c _ _ l s hl _ => hl.pass c s
  · intro c _ a planned l kept s hl _ hkept
    refine hl.keep w (hsits a ?_) ordered c s hkept
    rw [← hl.schedule]
    simp

/-! ### Bookings under fresh names -/

theorem suffix_unique {c : Char} (front front' back back' : List Char) (hback : c ∉ back)
    (hback' : c ∉ back') (h : front ++ c :: back = front' ++ c :: back') : back = back' := by
  have cut : ∀ front back : List Char, c ∉ back →
      ((front ++ c :: back).reverse.takeWhile (· ≠ c)).reverse = back := by
    intro front back hback
    have other : ∀ x ∈ back.reverse, decide (x ≠ c) = true := by
      intro x hx
      rw [decide_eq_true_eq]
      rintro rfl
      exact hback (List.mem_reverse.mp hx)
    rw [List.reverse_append, List.reverse_cons, List.append_assoc,
      List.takeWhile_append_of_pos other]
    simp
  rw [← cut front back hback, h, cut front' back' hback']

theorem at_not_mem_repr (i : ℕ) : '@' ∉ i.repr.toList := by
  intro h
  have digit := Nat.isDigit_of_mem_toDigits (by decide) (by decide)
    (by simpa [Nat.repr] using h : '@' ∈ Nat.toDigits 10 i)
  exact absurd digit (by decide)

/-- The names of bookings at different places differ, whatever the commands are. -/
theorem bookingName_place {c c' : Call} {i j : ℕ} (h : bookingName c i = bookingName c' j) :
    i = j := by
  have lists := congrArg String.toList h
  simp only [bookingName, String.toList_append, List.append_assoc] at lists
  have back := suffix_unique _ _ _ _ (at_not_mem_repr i) (at_not_mem_repr j) lists
  exact Nat.repr_inj.mp (String.toList_inj.mp back)

/-- No point of a network has the name that a booking would give it. -/
def Unbooked (base : Network) : Prop :=
  ∀ c i, startPoint (bookingName c i) ∉ base.points ∧ endPoint (bookingName c i) ∉ base.points

/-- The points that are not from the base network belong to bookings of executed commands. -/
def BooksExecuted (base : Network) (l : Live) : Prop :=
  ∀ p ∈ l.network.points, p ∈ base.points ∨ p = originPoint ∨
    ∃ c i, i < l.executed.length ∧
      (p = startPoint (bookingName c i) ∨ p = endPoint (bookingName c i))

theorem BooksExecuted.fresh {base : Network} {l : Live} (h : BooksExecuted base l)
    (unbooked : Unbooked base) (c : Call) :
    startPoint (bookingName c l.executed.length) ∉ l.network.points ∧
      endPoint (bookingName c l.executed.length) ∉ l.network.points := by
  constructor
  · intro hp
    obtain hp | hp | ⟨c', i, hi, hp | hp⟩ := h _ hp
    · exact (unbooked c _).1 hp
    · exact startPoint_ne_origin _ hp
    · have := bookingName_place ((startPoint_inj _ _).mp hp)
      omega
    · exact startPoint_ne_endPoint _ _ hp
  · intro hp
    obtain hp | hp | ⟨c', i, hi, hp | hp⟩ := h _ hp
    · exact (unbooked c _).2 hp
    · exact endPoint_ne_origin _ hp
    · exact endPoint_ne_startPoint _ _ hp
    · have := bookingName_place ((endPoint_inj _ _).mp hp)
      omega

/-- A live network with a solution, in which only executed commands are booked. -/
structure Sound (base : Network) (l : Live) : Prop where
  books : BooksExecuted base l
  solvable : ∃ t, l.network.Solves t

theorem Sound.pass {base : Network} {l : Live} (h : Sound base l) (c : Call) (s : State) :
    Sound base (l.after c s) := by
  refine ⟨fun p hp => ?_, h.solvable⟩
  obtain hp | hp | ⟨c', i, hi, hp⟩ := h.books p hp
  · exact .inl hp
  · exact .inr (.inl hp)
  · refine .inr (.inr ⟨c', i, ?_, hp⟩)
    simp only [Live.after, List.length_append]
    omega

theorem Sound.keep {base : Network} {l kept : Live} (h : Sound base l) (unbooked : Unbooked base)
    (w : l.network.WellFormed) (c : Call) (s : State) (a : Action) (sits : Sits base a)
    (hkept : l.keep c a = .ok kept) : Sound base (kept.after c s) := by
  obtain ⟨start, lo, -, -, hs, hf⟩ := sits.span
  have hkept := l.keep_anchored kept c a start lo hs hf hkept
  obtain ⟨hstart, hend⟩ := h.books.fresh unbooked c
  have booked := l.network.anchored_booked w (bookingName c l.executed.length) _
    (Bound.exactly_integral lo) start lo (Bound.exactly_least lo) [("command", .str c.text)]
  subst hkept
  constructor
  · intro p hp
    have place : l.executed.length < (l.executed ++ [c]).length := by simp
    rcases (booked.points p).mp hp with hp | hp | hp | hp
    · exact (h.pass c s).books p hp
    · exact .inr (.inr ⟨c, _, place, .inl hp⟩)
    · exact .inr (.inr ⟨c, _, place, .inr hp⟩)
    · exact .inr (.inl hp)
  · exact l.network.exists_solves_anchored w _ _ (Bound.exactly_integral lo) start _ lo
      ((Bound.exactly_contains lo lo).mpr rfl) hstart hend h.solvable

theorem carryOut_sound {base : Network} (w : base.WellFormed) (unbooked : Unbooked base)
    (d : Domain) (whole : List Action) (hsits : ∀ a ∈ whole, Sits base a)
    (ordered : whole.Pairwise Action.Precedes) (commands : List Call) (planned : List Action)
    (l l' : Live) (failed : Option Call) (trials : List Trial) (hl : Follows base whole l planned)
    (sound : Sound base l)
    (h : Live.carryOutRecorded d commands planned l = .ok ((l', failed), trials)) :
    Sound base l' := by
  suffices h : ∃ (_ : List Call) (left : List Action),
      Follows base whole l' left ∧ Sound base l' by
    obtain ⟨-, -, -, hsound⟩ := h
    exact hsound
  refine carryOut_induction (fun _ planned l => Follows base whole l planned ∧ Sound base l) d
    commands planned l l' failed trials h ⟨hl, sound⟩ ?_ ?_
  · rintro c _ _ l s ⟨hl, hsound⟩ -
    exact ⟨hl.pass c s, hsound.pass c s⟩
  · rintro c _ a planned l kept s ⟨hl, hsound⟩ - hkept
    have sits := hsits a (by rw [← hl.schedule]; simp)
    exact ⟨hl.keep w sits ordered c s hkept,
      hsound.keep unbooked hl.inOrder.wellFormed c s a sits hkept⟩

/-! ### Over all rounds -/

/-- An action was planned in some round with an effect whose times it keeps. -/
def PlannedIn (d : Domain) (rounds : List Round) (a : Action) : Prop :=
  ∃ round ∈ rounds, ∃ i e, PlannedAt d round i a e ∧ Timely a e

/-- What holds of the live values between rounds. -/
structure Between (d : Domain) (base : Network) (rounds : List Round) (l : Live) : Prop where
  inOrder : InOrder base (l.root [])
  planned : ∀ a ∈ l.schedule, PlannedIn d rounds a
  sound : Unbooked base → (∃ t, base.Solves t) → Sound base l

/-- Something was kept of the plans before the last search, and that booked nothing more. -/
def Unchecked (rounds : List Round) (p : Plan) : Prop :=
  ∃ last, rounds.getLast? = some last ∧ last.before.schedule ≠ [] ∧
    p.schedule = last.before.schedule

/-- What holds of the plan of a run. -/
structure InTime (d : Domain) (base : Network) (rounds : List Round) (p : Plan) : Prop where
  wellFormed : p.network.WellFormed
  ordered : p.schedule.Pairwise Action.Precedes
  planned : ∀ a ∈ p.schedule, PlannedIn d rounds a
  sits : ∀ a ∈ p.schedule, Sits base a
  solvable : Unbooked base → (∃ t, base.Solves t) → ∃ t, p.network.Solves t

theorem between_start (d : Domain) (base : Network) (w : base.WellFormed) (rounds : List Round)
    (s : State) : Between d base rounds (Live.start s base) :=
  ⟨inOrder_start w s, by simp [Live.start], fun _ solvable => ⟨fun _ hp => .inl hp, solvable⟩⟩

theorem getLast?_of_unfolds {d : Domain} {l : Live} {left : List Round} {p : Plan}
    (h : Unfolds d l left p) (round : Round) : (round :: left).getLast? = left.getLast? := by
  cases h <;> simp

section Rounds

variable {d : Domain} {base : Network} (w : base.WellFormed) {rounds : List Round}
include w

/-- The plan that a round finds is in time. -/
theorem Between.found {round : Round} (h : Between d base rounds round.before)
    (hmem : round ∈ rounds) (hfound : Extends d (round.before.root []) round.found)
    (whole : ∀ i a e, PlannedAt d round i a e → e.Whole) :
    InTime d base rounds round.found.toPlan ∧ Follows base round.found.schedule round.before
      (round.found.schedule.drop round.before.schedule.length) := by
  obtain ⟨hin, hbefore, hactions, hnetwork⟩ := round_advanced d base w round h.inOrder hfound whole
  constructor
  · constructor
    · exact hin.wellFormed
    · exact hin.ordered
    · intro a ha
      rcases hactions a ha with old | ⟨i, e, planned⟩
      · exact h.planned a old
      · exact ⟨round, hmem, i, e, planned⟩
    · exact hin.sits
    · intro unbooked solvable
      rcases hnetwork with ⟨-, same⟩ | ⟨-, solved⟩
      · obtain ⟨t, ht⟩ := (h.sound unbooked solvable).solvable
        exact ⟨t, by rw [← same] at ht; exact ht⟩
      · exact solved
  · obtain ⟨new, hnew⟩ := hbefore
    refine ⟨h.inOrder, ?_⟩
    have hnew : round.before.schedule ++ new = round.found.schedule := hnew
    rw [← hnew, List.drop_left' rfl]

/-- A round whose search books something, or before which nothing was kept, has its network
checked. -/
theorem Between.checked {round : Round} (h : Between d base rounds round.before)
    (hfound : Extends d (round.before.root []) round.found)
    (whole : ∀ i a e, PlannedAt d round i a e → e.Whole) (consistent : base.isConsistent = .ok true)
    (unkept : ¬ (round.before.schedule ≠ [] ∧ round.found.schedule = round.before.schedule)) :
    round.found.network.isConsistent = .ok true := by
  obtain ⟨-, -, -, hnetwork⟩ := round_advanced d base w round h.inOrder hfound whole
  rcases hnetwork with ⟨same, hbefore⟩ | ⟨checked, -⟩
  · have none : round.before.schedule = [] := by
      by_contra kept
      exact unkept ⟨kept, same⟩
    have hbase : round.before.network = base := h.inOrder.untouched none
    have hfound : round.found.network = base := hbefore.trans hbase
    rw [hfound]
    exact consistent
  · exact checked

theorem Between.carried {round : Round} (h : Between d base rounds round.before)
    (hmem : round ∈ rounds) (hfound : Extends d (round.before.root []) round.found)
    (whole : ∀ i a e, PlannedAt d round i a e → e.Whole) (commands : List Call) (l' : Live)
    (failed : Option Call) (trials : List Trial)
    (hcarried : Live.carryOutRecorded d commands
      (round.found.schedule.drop round.before.schedule.length) round.before =
        .ok ((l', failed), trials)) :
    Between d base rounds l' := by
  obtain ⟨intime, hfollows⟩ := h.found w hmem hfound whole
  obtain ⟨left, hleft⟩ := carryOut_follows w d round.found.schedule intime.sits intime.ordered
    commands _ round.before l' failed trials hfollows hcarried
  constructor
  · exact hleft.inOrder
  · intro a ha
    refine intime.planned a ?_
    have whole := hleft.schedule
    have : a ∈ l'.schedule ++ left := List.mem_append_left left ha
    rwa [whole] at this
  · intro unbooked solvable
    exact carryOut_sound w unbooked d round.found.schedule intime.sits intime.ordered commands _
      round.before l' failed trials hfollows (h.sound unbooked solvable) hcarried

/-- The induction is on the rounds that are left; what was carried out before is in time. -/
theorem unfolds_inTime (l : Live) (left : List Round) (p : Plan) (hunfolds : Unfolds d l left p)
    (hl : Between d base rounds l) (hsub : ∀ round ∈ left, round ∈ rounds)
    (whole : ∀ round ∈ rounds, ∀ i a e, PlannedAt d round i a e → e.Whole) :
    InTime d base rounds p ∧ (base.isConsistent = .ok true → ¬ Unchecked left p →
      p.network.isConsistent = .ok true) := by
  induction hunfolds with
  | last l l' n trials hfound hcarried =>
    have hmem := hsub ⟨l, n, trials⟩ List.mem_cons_self
    have before : Between d base rounds (Round.before ⟨l, n, trials⟩) := hl
    obtain ⟨⟨h₁, h₂, h₃, h₄, h₅⟩, -⟩ := before.found w hmem hfound (whole _ hmem)
    refine ⟨⟨h₁, h₂, h₃, h₄, h₅⟩, fun consistent checked => ?_⟩
    refine before.checked w hfound (whole _ hmem) consistent ?_
    rintro ⟨kept, same⟩
    exact checked ⟨_, rfl, kept, same⟩
  | again l l' n failed trials later p hfound hcarried hrest ih =>
    have hmem := hsub ⟨l, n, trials⟩ List.mem_cons_self
    have next := ih (hl.carried w hmem hfound (whole _ hmem) _ l' _ trials hcarried)
      fun round hround => hsub round (List.mem_cons_of_mem _ hround)
    simpa only [Unchecked, getLast?_of_unfolds hrest] using next

end Rounds

/-- A run that does not replan keeps nothing before its only search. -/
theorem Unfolds.unkept {d : Domain} {l : Live} {rounds : List Round} {p : Plan}
    (h : Unfolds d l rounds p) (fresh : l.schedule = []) (once : rounds.length = 1) :
    ¬ Unchecked rounds p := by
  rintro ⟨last, hlast, kept, -⟩
  cases h with
  | last l l' n trials hfound hcarried =>
    cases hlast
    exact kept fresh
  | again l l' n failed trials later p hfound hcarried hrest =>
    cases hrest <;> simp at once

/-- The schedule of a successful run, however many rounds it takes. When the base network has
integers or infinite numbers for its bounds and the planned actions integers for their times, the
actions follow one another, keep their times and keep clear of the base network's intervals. If
the base network is consistent, the network of the plan has a solution and its check says so, but
where a replan books nothing beside what is kept it may stop at an integer that is too large. -/
theorem schedule_in_time (clock : Clock) (d : Domain) (config : PlannerConfig) (s : State)
    (entries : List Entry) (r : PlanResult) (p : Plan) (reachable : config.network.Reachable)
    (h : plan clock d config s entries = .ok r) (hp : r.plan = .ok p) :
    ∃ rounds, planRecorded clock d config s entries = .ok (r, rounds) ∧
      ((∀ round ∈ rounds, ∀ i a e, PlannedAt d round i a e → e.Whole) →
        p.schedule.Pairwise Action.Precedes ∧
        (∀ a ∈ p.schedule, PlannedIn d rounds a ∧
          config.network.overlapping a.start a.finish = .ok []) ∧
        (config.network.isConsistent = .ok true →
          (config.execute = false ∨ rounds.length = 1 ∨ ¬ Unchecked rounds p →
            p.network.isConsistent = .ok true) ∧
          (Unbooked config.network → (∃ t, p.network.Solves t) ∧
            (p.network.isConsistent = .ok true ↔ p.network.Addable) ∧
            (¬ p.network.Addable → p.network.isConsistent = .error .tooLarge)))) := by
  obtain ⟨rounds, hrec⟩ := plan_recorded clock d config s entries r h
  refine ⟨rounds, hrec, fun whole => ?_⟩
  have w := reachable.wellFormed
  have start := between_start d config.network w rounds s
  have dry : config.execute = false → ∃ n, Extends d ((Live.start s config.network).root []) n ∧
      rounds = [⟨Live.start s config.network, n, []⟩] ∧ p = n.toPlan := fun hmode =>
    planRecorded_dry clock d config s entries r rounds p hmode hrec hp
  have intime : InTime d config.network rounds p ∧ (config.network.isConsistent = .ok true →
      config.execute = false ∨ rounds.length = 1 ∨ ¬ Unchecked rounds p →
        p.network.isConsistent = .ok true) := by
    cases hmode : config.execute with
    | true =>
      have unfolds := planRecorded_unfolds clock d config s entries r rounds p hmode hrec hp
      obtain ⟨intime, checked⟩ := unfolds_inTime w _ rounds p unfolds start (fun _ h => h) whole
      refine ⟨intime, fun consistent condition => checked consistent ?_⟩
      obtain mode | once | unkept := condition
      · cases mode
      · exact unfolds.unkept rfl once
      · exact unkept
    | false =>
      obtain ⟨n, hfound, rfl, rfl⟩ := dry hmode
      let round : Round := ⟨Live.start s config.network, n, []⟩
      have hmem : round ∈ [round] := List.mem_singleton_self round
      have before : Between d config.network [round] round.before := start
      refine ⟨(before.found w hmem hfound (whole round hmem)).1, fun consistent _ => ?_⟩
      exact before.checked w hfound (whole round hmem) consistent fun ⟨kept, _⟩ => kept rfl
  obtain ⟨intime, checked⟩ := intime
  refine ⟨intime.ordered, fun a ha => ⟨intime.planned a ha, (intime.sits a ha).clear⟩, ?_⟩
  intro consistent
  refine ⟨checked consistent, fun unbooked => ?_⟩
  have solvable := ((config.network.isConsistent_true_iff w).mp consistent).2
  have solved := intime.solvable unbooked solvable
  have answers := p.network.isConsistent_true_iff intime.wellFormed
  refine ⟨solved, answers.trans (and_iff_left solved), fun large => ?_⟩
  exact p.network.isConsistent_fault intime.wellFormed large

theorem mem_of_registered {α : Type} (name : Value) (t : Table String α) (f : α)
    (h : Domain.registered? name t = .ok (some f)) : ∃ s, name = .str s ∧ (s, f) ∈ t := by
  unfold Domain.registered? at h
  split at h
  · next s => exact ⟨s, rfl, mem_of_find? s f t (Except.ok.inj h)⟩
  · split at h <;> cases h

theorem at_mem_startPoint (c : Call) (i : ℕ) : '@' ∈ (startPoint (bookingName c i)).toList := by
  simp [startPoint, bookingName]

theorem at_mem_endPoint (c : Call) (i : ℕ) : '@' ∈ (endPoint (bookingName c i)).toList := by
  simp [endPoint, bookingName]

/-- Without an at sign in its names a network has no booking. -/
theorem unbooked_of_names (base : Network) (h : ∀ p ∈ base.points, '@' ∉ p.toList) :
    Unbooked base :=
  fun c i => ⟨fun hp => h _ hp (at_mem_startPoint c i), fun hp => h _ hp (at_mem_endPoint c i)⟩

namespace Delivery

/-- A break that is booked before the run. -/
def lunch : IntervalSpec :=
  { id := "break", duration := .int 4, start := .int 3, finish := .null, metadata := .null }

def day : Network :=
  (((Network.standard.addPoint "break_start").addPoint "break_end").addBound "break_start"
    "break_end" (.exactly (.int 4))).addBound originPoint "break_start" (.exactly (.int 3))

theorem day_reachable : day.Reachable := by
  refine .write Network.standard day (.interval lunch) (.empty .second .medium false 4) ?_ rfl
  exact ⟨.ofInt 4, fun parts h => (by cases h), .ofInt 3, fun x h => (by cases h)⟩

def dayConfig : PlannerConfig := { config with network := day }

theorem whole (c : Call) (f : Callback (List Value)) (s : State) (e : Lasting)
    (hf : Domain.registered? c.name domain.commands = .ok (some f))
    (hrun : f.run s c.args = .ok (.lasting e)) : e.Whole := by
  obtain ⟨name, -, hf⟩ := mem_of_registered _ _ _ hf
  simp only [domain, List.mem_cons, Prod.mk.injEq, List.not_mem_nil, or_false] at hf
  rcases hf with ⟨-, rfl⟩ | ⟨-, rfl⟩ | ⟨-, rfl⟩
  · cases hrun
  · cases hrun
  · cases hrun
    exact ⟨⟨5, .int 5, rfl, .ofInt 5⟩, .ofInt 20, .ofInt 2⟩

/-- After the letter has been mailed in vain it is carried behind the break. -/
theorem carried_in_time : ∃ r p rounds, dayConfig.network.Reachable ∧
    plan Clock.stopped domain dayConfig State.empty entries = .ok r ∧ r.plan = .ok p ∧
    planRecorded Clock.stopped domain dayConfig State.empty entries = .ok (r, rounds) ∧
    rounds.length = 2 ∧
    p.schedule.map (fun a => (a.start, a.finish)) = [(.int 7, .int 12)] ∧
    p.schedule.Pairwise Action.Precedes ∧
    (∀ a ∈ p.schedule, PlannedIn domain rounds a ∧
      day.overlapping a.start a.finish = .ok []) ∧
    day.isConsistent = .ok true ∧ Unbooked day ∧ ¬ Unchecked rounds p ∧
    p.network.isConsistent = .ok true ∧ ∃ t, p.network.Solves t := by
  obtain ⟨r, p, rounds, h, hp, hrec, hread⟩ := exists_recorded Clock.stopped domain dayConfig
    State.empty entries
    (fun p rounds => (p.schedule.map fun a => (a.start, a.finish), rounds.length,
      rounds.map fun round => round.before.schedule.length))
    ([(.int 7, .int 12)], 2, [0, 0]) (by decide +kernel)
  obtain ⟨hschedule, hread⟩ := Prod.mk.inj hread
  obtain ⟨hlength, hkept⟩ := Prod.mk.inj hread
  have consistent : day.isConsistent = .ok true := by rfl
  have unbooked : Unbooked day := unbooked_of_names day (by decide +kernel)
  have checked : ¬ Unchecked rounds p := by
    rintro ⟨last, hlast, kept, -⟩
    have none := List.mem_map_of_mem (f := fun round => round.before.schedule.length)
      (List.mem_of_getLast? hlast)
    rw [hkept] at none
    exact kept (List.eq_nil_of_length_eq_zero (by simpa using none))
  obtain ⟨rounds', hrec', hwhole⟩ := schedule_in_time Clock.stopped domain dayConfig State.empty
    entries r p day_reachable h hp
  rw [hrec] at hrec'
  cases hrec'
  obtain ⟨ordered, sits, network⟩ := hwhole fun round _ i a e ⟨node, f, _, _, _, _, hf, hrun, _⟩ =>
    whole a.command f node.state e hf hrun
  obtain ⟨answers, solvable⟩ := network consistent
  exact ⟨r, p, rounds, day_reachable, h, hp, hrec, hlength, hschedule, ordered, sits, consistent,
    unbooked, checked, answers (.inr (.inr checked)), (solvable unbooked).1⟩

end Delivery

/-! ### Times that are no integers

Integers of the commands alone do not do. After a booking that ends at the binary64 number 3 an
action begins there, and its end is rounded beyond the deadline. -/

namespace Workshop

def booked : IntervalSpec :=
  { id := "booked", duration := .float (.finite 3), start := .int 0, finish := .null,
    metadata := .null }

def network : Network :=
  match Network.standard.addInterval booked with
  | .ok n => n
  | .error _ => .standard

def effect (s : State) : Lasting :=
  { state := Journey.note "welded" s, duration := .int 9007199254740995,
    deadline := .int 9007199254740998, release := .null }

def domain : Domain :=
  { Domain.empty "workshop" with
    commands := [("weld", Journey.command "weld" 0 fun s => .lasting (effect s))] }

def config : PlannerConfig := { PlannerConfig.standard with network }

def entries : List Entry := [.item (.command ⟨.str "weld", []⟩)]

theorem planned_effect (round : Round) (i : ℕ) (a : Action) (e : Lasting)
    (h : PlannedAt domain round i a e) : e.Whole ∧ e.deadline = .int 9007199254740998 := by
  obtain ⟨node, f, _, _, _, _, hf, hrun, _⟩ := h
  obtain ⟨name, -, hf⟩ := mem_of_registered _ _ _ hf
  simp only [domain, List.mem_cons, Prod.mk.injEq, List.not_mem_nil, or_false] at hf
  obtain ⟨-, rfl⟩ := hf
  cases hrun
  exact ⟨⟨⟨_, _, rfl, .ofInt _⟩, .ofInt _, fun x h => (by cases h)⟩, rfl⟩

theorem ends_late : ∃ r p rounds a,
    plan Clock.stopped domain config State.empty entries = .ok r ∧ r.plan = .ok p ∧
    planRecorded Clock.stopped domain config State.empty entries = .ok (r, rounds) ∧
    (∀ round ∈ rounds, ∀ i a e, PlannedAt domain round i a e →
      e.Whole ∧ e.deadline = .int 9007199254740998) ∧
    p.schedule = [a] ∧ a.finish.le (.int 9007199254740998) = false := by
  obtain ⟨r, p, rounds, h, hp, hrec, hschedule⟩ := exists_recorded Clock.stopped domain config
    State.empty entries (fun p _ => p.schedule.map fun a => a.finish)
    [.float (.finite 9007199254741000)] (by decide +kernel)
  obtain ⟨a, hsingle, hfinish⟩ := List.map_eq_singleton_iff.mp hschedule
  refine ⟨r, p, rounds, a, h, hp, hrec, fun round _ i a e => planned_effect round i a e, hsingle, ?_⟩
  rw [hfinish]
  decide +kernel

end Workshop

/-! ### A network that is not checked again

The ebb is as far away as no binary64 number is. The deadline of the work brings its end into
reach of the check; the booking that is kept after the work has none, and nothing is checked when
no work is left to be planned. -/

namespace Causeway
open Journey (note command)

/-- Twice this is the least positive integer that no binary64 number stands for. -/
def far : ℤ := (Nat.pow 2 1023 - Nat.pow 2 969 : ℕ)

def flood : Network := Network.standard.addBound originPoint "flood" ⟨.int far, .int far⟩

def network : Network := flood.addBound "flood" "ebb" ⟨.int far, .int far⟩

theorem network_reachable : network.Reachable := by
  have accepted : Bound.ofValues (.int far) (.int far) = .ok ⟨.int far, .int far⟩ :=
    toOption_eq_some_iff.mp (by decide +kernel)
  have one : flood.Reachable := .write Network.standard _
    (.bound originPoint "flood" (.int far) (.int far)) (.empty .second .medium false 4)
    ⟨.ofInt far, .ofInt far⟩ (by rw [Network.Write.apply, Network.addConstraint, accepted]; rfl)
  exact .write _ _ (.bound "flood" "ebb" (.int far) (.int far)) one
    ⟨.ofInt far, .ofInt far⟩ (by rw [Network.Write.apply, Network.addConstraint, accepted]; rfl)

def effect (s : State) : Lasting :=
  { state := note "paved" s, duration := .int 5, deadline := .int 100, release := .null }

def isPaved (s : State) : Bool :=
  (s.read { category := defaultCategory, name := .str "paved", entities := [] }).truthy

/-- All the work, unless it is done already. -/
def works : Callback (List Value) :=
  { name := "works", serial := 3
    run := fun s _ =>
      .ok (if isPaved s then .notApplicable else
        .items (["pave", "paint"].map fun c => .item (.command ⟨.str c, []⟩)) false) }

def domain : Domain :=
  { Domain.empty "causeway" with
    commands := [
      ("pave", command "pave" 0 fun s => .lasting (effect s)),
      ("paint", command "paint" 1 fun s => .state (note "painted" s))]
    tasks := [("build", [works, Journey.method "leave it" 4 []])]
    actuators := [("paint", command "brush" 2 fun _ => .refused (.str "rain"))] }

def config : PlannerConfig := { PlannerConfig.standard with execute := true, network }

def entries : List Entry := [.item (.task ⟨.str "build", []⟩)]

theorem planned_effect (round : Round) (i : ℕ) (a : Action) (e : Lasting)
    (h : PlannedAt domain round i a e) : e.Whole := by
  obtain ⟨node, f, _, _, _, _, hf, hrun, _⟩ := h
  obtain ⟨name, -, hf⟩ := mem_of_registered _ _ _ hf
  simp only [domain, List.mem_cons, Prod.mk.injEq, List.not_mem_nil, or_false] at hf
  rcases hf with ⟨-, rfl⟩ | ⟨-, rfl⟩
  · cases hrun
    exact ⟨⟨5, .int 5, rfl, .ofInt 5⟩, .ofInt 100, fun x h => (by cases h)⟩
  · cases hrun

theorem ends_unchecked : ∃ r p rounds, network.Reachable ∧ Unbooked network ∧
    network.isConsistent = .ok true ∧
    plan Clock.stopped domain config State.empty entries = .ok r ∧ r.plan = .ok p ∧
    planRecorded Clock.stopped domain config State.empty entries = .ok (r, rounds) ∧
    (∀ round ∈ rounds, ∀ i a e, PlannedAt domain round i a e → e.Whole) ∧
    p.network.isConsistent = .error .tooLarge := by
  have consistent : network.isConsistent = .ok true :=
    toOption_eq_some_iff.mp (by decide +kernel)
  obtain ⟨r, p, rounds, h, hp, hrec, answer⟩ := exists_recorded Clock.stopped domain config
    State.empty entries (fun p _ => match p.network.isConsistent with
      | .error .tooLarge => true
      | _ => false) true (by decide +kernel)
  refine ⟨r, p, rounds, network_reachable, unbooked_of_names network (by decide +kernel),
    consistent, h, hp, hrec, fun round _ => planned_effect round, ?_⟩
  split at answer
  · assumption
  · cases answer

end Causeway

/-- With times that are no integers in the base network an action can end after its deadline, and
after a replan the network of the plan can be one that its check does not get through. -/
theorem late_or_unchecked :
    (∃ r p rounds a,
      plan Clock.stopped Workshop.domain Workshop.config State.empty Workshop.entries = .ok r ∧
      r.plan = .ok p ∧
      planRecorded Clock.stopped Workshop.domain Workshop.config State.empty Workshop.entries =
        .ok (r, rounds) ∧
      (∀ round ∈ rounds, ∀ i a e, PlannedAt Workshop.domain round i a e →
        e.Whole ∧ e.deadline = .int 9007199254740998) ∧
      p.schedule = [a] ∧ a.finish.le (.int 9007199254740998) = false) ∧
    ∃ r p rounds, Causeway.network.Reachable ∧ Unbooked Causeway.network ∧
      Causeway.network.isConsistent = .ok true ∧
      plan Clock.stopped Causeway.domain Causeway.config State.empty Causeway.entries = .ok r ∧
      r.plan = .ok p ∧
      planRecorded Clock.stopped Causeway.domain Causeway.config State.empty Causeway.entries =
        .ok (r, rounds) ∧
      (∀ round ∈ rounds, ∀ i a e, PlannedAt Causeway.domain round i a e → e.Whole) ∧
      p.network.isConsistent = .error .tooLarge :=
  ⟨Workshop.ends_late, Causeway.ends_unchecked⟩

end Chronoplan
