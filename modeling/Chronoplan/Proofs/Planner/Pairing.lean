import Chronoplan.Proofs.Planner.Schedules

/-!
# Actions and the commands they belong to

The schedule of a plan lists the commands that last, in order, and each is booked under its name
and place. A search keeps to that by itself. When a plan is carried out, the next planned action
goes to the first command that counts as the same; this is the right one as long as no command
that takes no time counts as the same as a later one that does.
-/

set_option autoImplicit false

namespace Chronoplan

/-- The round that planned the command at a place of the final plan: the last one that began with
no more commands carried out. -/
def PlannedBy (rounds : List Round) (round : Round) (i : ℕ) : Prop :=
  ∃ front rest, rounds = front ++ round :: rest ∧ round.before.executed.length ≤ i ∧
    ∀ later ∈ rest, i < later.before.executed.length

/-- The command at a place lasts, by its own application in the search that planned it. -/
def LastsAt (d : Domain) (rounds : List Round) (i : ℕ) (a : Action) : Prop :=
  ∃ round e, PlannedBy rounds round i ∧ PlannedAt d round i a e

/-- A planned action counts as belonging to its own command, and to an earlier one only if that
lasts, too. -/
structure Distinguishes (d : Domain) (round : Round) : Prop where
  itself : ∀ i a e, PlannedAt d round i a e → a.command.same a.command = true
  earlier : ∀ i j a e c, PlannedAt d round j a e → round.before.executed.length ≤ i → i < j →
    round.found.commands[i]? = some c → a.command.same c = true → ∃ b e', PlannedAt d round i b e'

theorem plannedBy_unique (rounds : List Round) (round round' : Round) (i : ℕ)
    (h : PlannedBy rounds round i) (h' : PlannedBy rounds round' i) : round = round' := by
  obtain ⟨front, rest, hsplit, hle, hlater⟩ := h
  obtain ⟨front', rest', hsplit', hle', hlater'⟩ := h'
  rw [hsplit] at hsplit'
  rcases List.append_eq_append_iff.mp hsplit' with ⟨between, -, hrest⟩ | ⟨between, -, hrest⟩
  · cases between with
    | nil => exact (List.cons.inj hrest).1
    | cons x between =>
      have hmem : round' ∈ rest := by
        rw [(List.cons.inj hrest).2]
        simp
      exact absurd (hlater round' hmem) (not_lt.mpr hle')
  · cases between with
    | nil => exact (List.cons.inj hrest).1.symm
    | cons x between =>
      have hmem : round ∈ rest' := by
        rw [(List.cons.inj hrest).2]
        simp
      exact absurd (hlater' round hmem) (not_lt.mpr hle)

theorem plannedAt_unique (d : Domain) (round : Round) (i : ℕ) (a b : Action) (e e' : Lasting)
    (h : PlannedAt d round i a e) (h' : PlannedAt d round i b e') : a = b := by
  obtain ⟨node, f, m, -, hc, hreplay, hf, hrun, hplace⟩ := h
  obtain ⟨node', f', m', -, hc', hreplay', hf', hrun', hplace'⟩ := h'
  have hcommand : b.command = a.command := Option.some.inj (hc'.symm.trans hc)
  rw [hcommand] at hf' hrun' hplace'
  cases hreplay.symm.trans hreplay'
  cases hf.symm.trans hf'
  cases hrun.symm.trans hrun'
  cases hplace.symm.trans hplace'
  rfl

/-! ### Bookings -/

def bookingOf (x : ℕ × Action) : String := bookingName x.2.command x.1

/-- The interval of a command that lasts is there, with the command's text. -/
structure IsBooked (n : Network) (x : ℕ × Action) : Prop where
  first : startPoint (bookingOf x) ∈ n.points
  last : endPoint (bookingOf x) ∈ n.points
  text : ∃ data, n.metadata.find? sameText (bookingOf x) = some data ∧
    data.find? sameText "command" = some (.str x.2.command.text)

/-- A network books commands at places beside what it had. -/
structure Books (base n : Network) (pairs : List (ℕ × Action)) : Prop where
  booked : ∀ x ∈ pairs, IsBooked n x
  points : ∀ p ∈ n.points, p ∈ base.points ∨ p = originPoint ∨
    ∃ x ∈ pairs, p = startPoint (bookingOf x) ∨ p = endPoint (bookingOf x)

/-- A network after the command at a place has been booked. -/
structure BooksOne (n m : Network) (x : ℕ × Action) : Prop where
  points : ∀ p, p ∈ m.points ↔
    p ∈ n.points ∨ p = startPoint (bookingOf x) ∨ p = endPoint (bookingOf x) ∨ p = originPoint
  metadata : m.metadata =
    (n.withMetadata (bookingOf x) [("command", .str x.2.command.text)]).metadata

theorem Books.one {base n m : Network} {pairs : List (ℕ × Action)} (h : Books base n pairs)
    (x : ℕ × Action) (later : ∀ y ∈ pairs, y.1 < x.1) (hm : BooksOne n m x) :
    Books base m (pairs ++ [x]) := by
  have metadata : ∀ id, m.metadata.find? sameText id = if bookingOf x = id
      then some (((n.metadata.find? sameText (bookingOf x)).getD []).insert sameText "command"
        (.str x.2.command.text))
      else n.metadata.find? sameText id := by
    intro id
    rw [hm.metadata]
    exact sameText_find?_insert _ _ _ _
  constructor
  · intro y hy
    rcases List.mem_append.mp hy with hy | hy
    · obtain ⟨hfirst, hlast, htext⟩ := h.booked y hy
      refine ⟨(hm.points _).mpr (.inl hfirst), (hm.points _).mpr (.inl hlast), ?_⟩
      -- an older booking is at another place, so its data are not overwritten
      have other : bookingOf x ≠ bookingOf y := by
        intro same
        have := bookingName_place same
        have := later y hy
        omega
      rw [metadata, if_neg other]
      exact htext
    · cases List.mem_singleton.mp hy
      refine ⟨(hm.points _).mpr (.inr (.inl rfl)), (hm.points _).mpr (.inr (.inr (.inl rfl))), ?_⟩
      refine ⟨_, (metadata _).trans (if_pos rfl), ?_⟩
      rw [sameText_find?_insert, if_pos rfl]
  · intro p hp
    rcases (hm.points p).mp hp with hp | hp | hp | hp
    · obtain hp | hp | ⟨y, hy, hp⟩ := h.points p hp
      · exact .inl hp
      · exact .inr (.inl hp)
      · exact .inr (.inr ⟨y, List.mem_append_left _ hy, hp⟩)
    · exact .inr (.inr ⟨x, by simp, .inl hp⟩)
    · exact .inr (.inr ⟨x, by simp, .inr hp⟩)
    · exact .inr (.inl hp)

theorem anchored_booksOne (n : Network) (x : ℕ × Action) (duration : Bound) (time : Number) :
    BooksOne n (n.anchored (bookingOf x) duration time [("command", .str x.2.command.text)]) x :=
  ⟨n.mem_points_anchored _ duration time _, rfl⟩

theorem BooksOne.limit {n m m' : Network} {x : ℕ × Action} (h : BooksOne n m x) (p : String)
    (hp : p = startPoint (bookingOf x) ∨ p = endPoint (bookingOf x)) (given : Value)
    (bound : Value → Value × Value) (hlimit : m.limit p given bound = .ok m') :
    BooksOne n m' x := by
  obtain ⟨-, rfl⟩ | ⟨b, -, rfl⟩ := m.limit_cases m' p given bound hlimit
  · exact h
  · constructor
    · intro q
      rw [Network.mem_points_addBound, h.points]
      rcases hp with rfl | rfl <;> tauto
    · exact h.metadata

theorem book_booksOne (n m : Network) (i : ℕ) (a : Action) (e : Lasting) (start : Number)
    (h : book n a.command i e start = .ok m) : BooksOne n m (i, a) := by
  obtain ⟨-, h⟩ := (requireWritable_bind_iff _ _ _).mp h
  obtain ⟨n₁, h₁, hlimits⟩ := (bind_eq_ok_iff _ _ _).mp h
  obtain ⟨n₂, h₂, h₃⟩ := (bind_eq_ok_iff _ _ _).mp hlimits
  obtain ⟨lo, hi, bound, -, -, hn₁⟩ := n.addInterval_anchored n₁ _ _ _ start h₁
  have one : BooksOne n n₁ (i, a) := by
    rw [hn₁]
    exact anchored_booksOne n (i, a) bound start
  exact (one.limit _ (.inr rfl) _ _ h₂).limit _ (.inl rfl) _ _ h₃

theorem place_booksOne (node : Node) (c : Call) (e : Lasting) (m : Network) (a : Action)
    (h : place node c e = .ok (.ok (m, a))) :
    BooksOne node.network m (node.commands.length, a) := by
  obtain ⟨-, -, slot, -, -, -, -, -, -, -, -, hbook, -, -, rfl, -⟩ := place_eq_ok node c e m a h
  exact book_booksOne node.network m _ a e slot.start hbook

theorem keep_booksOne (l kept : Live) (a : Action) (h : l.keep a.command a = .ok kept) :
    BooksOne l.network kept.network (l.executed.length, a) ∧
      kept.schedule = l.schedule ++ [a] ∧ kept.executed = l.executed := by
  obtain ⟨duration, -, h⟩ := (bind_eq_ok_iff _ _ _).mp h
  obtain ⟨network, hnetwork, h⟩ := (bind_eq_ok_iff _ _ _).mp h
  cases h
  obtain ⟨lo, hi, bound, -, -, rfl⟩ := l.network.addInterval_anchored network _ _ _ a.start hnetwork
  exact ⟨anchored_booksOne l.network (_, a) bound a.start, rfl, rfl⟩

/-! ### Lists of places and actions -/

/-- A schedule lists the commands that last, each with its place, and they are what is booked. -/
structure Lists (base : Network) (lasts : ℕ → Action → Prop) (commands : List Call)
    (schedule : List Action) (network : Network) (pairs : List (ℕ × Action)) : Prop where
  schedule : schedule = pairs.map Prod.snd
  increasing : pairs.Pairwise fun x y => x.1 < y.1
  lasting : ∀ i a, (i, a) ∈ pairs ↔ i < commands.length ∧ lasts i a
  commands : ∀ x ∈ pairs, commands[x.1]? = some x.2.command
  books : Books base network pairs

section Lists

variable {base : Network} {lasts : ℕ → Action → Prop} {commands : List Call}
  {schedule : List Action} {network : Network} {pairs : List (ℕ × Action)}

theorem Lists.congr {lasts' : ℕ → Action → Prop}
    (h : Lists base lasts commands schedule network pairs)
    (same : ∀ i a, i < commands.length → (lasts i a ↔ lasts' i a)) :
    Lists base lasts' commands schedule network pairs := by
  refine ⟨h.schedule, h.increasing, fun i a => ?_, h.commands, h.books⟩
  rw [h.lasting]
  exact and_congr_right fun hi => same i a hi

theorem Lists.place_lt (h : Lists base lasts commands schedule network pairs) (x : ℕ × Action)
    (hx : x ∈ pairs) : x.1 < commands.length :=
  ((h.lasting x.1 x.2).mp hx).1

theorem Lists.getElem_append (h : Lists base lasts commands schedule network pairs) (c : Call)
    (x : ℕ × Action) (hx : x ∈ pairs) : (commands ++ [c])[x.1]? = some x.2.command := by
  rw [List.getElem?_append_left (h.place_lt x hx)]
  exact h.commands x hx

/-- A further command that takes no time. -/
theorem Lists.pass (h : Lists base lasts commands schedule network pairs) (c : Call)
    (instant : ∀ a, ¬ lasts commands.length a) :
    Lists base lasts (commands ++ [c]) schedule network pairs := by
  refine ⟨h.schedule, h.increasing, fun i a => ?_, h.getElem_append c, h.books⟩
  rw [h.lasting, List.length_append, List.length_singleton]
  constructor
  · rintro ⟨hi, hlasts⟩
    exact ⟨by omega, hlasts⟩
  · rintro ⟨hi, hlasts⟩
    refine ⟨?_, hlasts⟩
    by_contra hlast
    have : i = commands.length := by omega
    exact instant a (this ▸ hlasts)

/-- A further command that lasts, with its action booked. -/
theorem Lists.book (h : Lists base lasts commands schedule network pairs) (a : Action)
    (m : Network) (hlasts : ∀ b, lasts commands.length b ↔ b = a)
    (hm : BooksOne network m (commands.length, a)) :
    Lists base lasts (commands ++ [a.command]) (schedule ++ [a]) m
      (pairs ++ [(commands.length, a)]) := by
  constructor
  · rw [h.schedule]
    simp
  · rw [List.pairwise_append]
    refine ⟨h.increasing, List.pairwise_singleton _ _, fun x hx y hy => ?_⟩
    cases List.mem_singleton.mp hy
    exact h.place_lt x hx
  · intro i b
    rw [List.mem_append, h.lasting, List.length_append, List.length_singleton,
      List.mem_singleton, Prod.mk.injEq]
    constructor
    · rintro (⟨hi, hb⟩ | ⟨rfl, rfl⟩)
      · exact ⟨by omega, hb⟩
      · exact ⟨by omega, (hlasts b).mpr rfl⟩
    · rintro ⟨hi, hb⟩
      by_cases hlast : i = commands.length
      · subst hlast
        exact .inr ⟨rfl, (hlasts b).mp hb⟩
      · exact .inl ⟨by omega, hb⟩
  · intro x hx
    rcases List.mem_append.mp hx with hx | hx
    · exact h.getElem_append _ x hx
    · cases List.mem_singleton.mp hx
      simp
  · exact h.books.one _ (h.place_lt) hm

end Lists

/-! ### In a search -/

theorem replay_commands (d : Domain) (root node : Node) (front : List Call)
    (h : replay d root front = .ok (some node)) : node.commands = root.commands ++ front := by
  induction front generalizing root with
  | nil =>
    cases h
    exact (List.append_nil _).symm
  | cons c front ih =>
    obtain ⟨enacted, henact, h⟩ := (bind_eq_ok_iff _ _ _).mp h
    cases enacted with
    | none => cases h
    | some next =>
      have hnext : next.commands = root.commands ++ [c] := by
        obtain ⟨f, -, ⟨s, -, rfl⟩ | ⟨e, m, a, -, -, rfl⟩⟩ := enact_cases d root next c henact
        · rfl
        · rfl
      rw [ih next h, hnext, List.append_assoc]
      rfl

/-- At the place behind the commands of a replay only the next command counts. -/
theorem plannedAt_next (d : Domain) (round : Round) (front rest : List Call) (c : Call)
    (node : Node) (a : Action) (e : Lasting)
    (hcommands : round.found.commands = round.before.executed ++ (front ++ c :: rest))
    (hfront : replay d (round.before.root []) front = .ok (some node))
    (h : PlannedAt d round (round.before.executed.length + front.length) a e) :
    ∃ f m, Domain.registered? c.name d.commands = .ok (some f) ∧
      f.run node.state c.args = .ok (.lasting e) ∧ place node c e = .ok (.ok (m, a)) := by
  obtain ⟨node', f, m, -, hc, hreplay, hf, hrun, hplace⟩ := h
  rw [hcommands, ← List.append_assoc, ← List.length_append] at hc hreplay
  rw [List.take_left' rfl, List.drop_left' rfl, hfront] at hreplay
  cases hreplay
  have hcommand : a.command = c := by simpa using hc.symm
  rw [hcommand] at hf hrun hplace
  exact ⟨f, m, hf, hrun, hplace⟩

/-- Which commands last while a round is under way: those carried out before as they did, and
those that the round has planned. -/
def During (d : Domain) (round : Round) (lasts : ℕ → Action → Prop) (i : ℕ) (a : Action) : Prop :=
  i < round.before.executed.length ∧ lasts i a ∨ ∃ e, PlannedAt d round i a e

theorem PlannedAt.le {d : Domain} {round : Round} {i : ℕ} {a : Action} {e : Lasting}
    (h : PlannedAt d round i a e) : round.before.executed.length ≤ i := by
  obtain ⟨-, -, -, hle, -⟩ := h
  exact hle

theorem during_iff_plannedAt {d : Domain} {round : Round} {lasts : ℕ → Action → Prop} {i : ℕ}
    {a : Action} (h : round.before.executed.length ≤ i) :
    During d round lasts i a ↔ ∃ e, PlannedAt d round i a e := by
  constructor
  · rintro (⟨hi, -⟩ | planned)
    · omega
    · exact planned
  · exact .inr

section Round

variable {d : Domain} {base : Network} (round : Round) {lasts : ℕ → Action → Prop}
  {old : List (ℕ × Action)}
  (before : Lists base lasts round.before.executed round.before.schedule round.before.network old)
include before

theorem lists_during :
    Lists base (During d round lasts) round.before.executed round.before.schedule
      round.before.network old := by
  refine before.congr fun i a hi => ?_
  constructor
  · exact fun h => .inl ⟨hi, h⟩
  · rintro (⟨-, h⟩ | ⟨e, planned⟩)
    · exact h
    · have := planned.le
      omega

/-- The schedule of the plan that a round finds lists the commands of the plan that last. -/
theorem round_lists (hfound : Extends d (round.before.root []) round.found) :
    ∃ new, Lists base (During d round lasts) round.found.commands round.found.schedule
      round.found.network (old ++ new) := by
  obtain ⟨added, hadded, hreplay⟩ := hfound
  refine replay_induction (fun node => ∃ new, Lists base (During d round lasts) node.commands
    node.schedule node.network (old ++ new)) d (round.before.root []) round.found.owned added
    hreplay ?_ ?_
  · exact ⟨[], by rw [List.append_nil]; exact lists_during round before⟩
  · rintro front c rest node next hsplit hfront henact ⟨new, hnode⟩
    have hcommands : round.found.commands = round.before.executed ++ (front ++ c :: rest) :=
      hadded.trans (congrArg _ hsplit)
    have hplace : node.commands.length = round.before.executed.length + front.length := by
      rw [replay_commands d _ node front hfront, List.length_append]
      rfl
    have begun : round.before.executed.length ≤ node.commands.length := by omega
    have during : ∀ b, During d round lasts node.commands.length b ↔
        ∃ e, PlannedAt d round node.commands.length b e := fun _ => during_iff_plannedAt begun
    obtain ⟨f, hf, ⟨s, hrun, rfl⟩ | ⟨e, m, a, hrun, hplaced, rfl⟩⟩ := enact_cases d node next c henact
    · refine ⟨new, hnode.pass c fun b hb => ?_⟩
      obtain ⟨e, planned⟩ := (during b).mp hb
      rw [hplace] at planned
      obtain ⟨g, m, hg, hlasting, -⟩ := plannedAt_next d round front rest c node b e hcommands
        hfront planned
      cases hf.symm.trans hg
      cases hrun.symm.trans hlasting
    · have planned := plannedAt_of_replay d round front rest c node f e m a hcommands hfront hf hrun
        hplaced
      have hcommand := place_command node c e m a hplaced
      rw [← hplace] at planned
      have listed := hnode.book a m (fun b => by
        rw [during]
        constructor
        · rintro ⟨e', planned'⟩
          exact plannedAt_unique d round _ b a e' e planned' planned
        · rintro rfl
          exact ⟨e, planned⟩) (place_booksOne node c e m a hplaced)
      rw [hcommand, List.append_assoc] at listed
      exact ⟨_, listed⟩

end Round

/-! ### While a plan is carried out -/

/-- What has been carried out of a plan is listed by the first of its pairs, and the planned
actions that are left are those of the others. -/
structure Paired (base : Network) (lasts : ℕ → Action → Prop) (round : Round)
    (pairs : List (ℕ × Action)) (commands : List Call) (planned : List Action) (l : Live) :
    Prop where
  commands : round.found.commands = l.executed ++ commands
  begun : round.before.executed.length ≤ l.executed.length
  split : ∃ done left, pairs = done ++ left ∧ planned = left.map Prod.snd ∧
    Lists base lasts l.executed l.schedule l.network done

/-- The pairs that are left belong to later places, and the next command that lasts has the first
of them. -/
theorem Lists.next {base : Network} {lasts : ℕ → Action → Prop} {executed rest : List Call}
    {c : Call} {schedule : List Action} {network : Network} {pairs done left : List (ℕ × Action)}
    (whole : Lists base lasts (executed ++ c :: rest) schedule network pairs)
    (hsplit : pairs = done ++ left)
    (hdone : ∀ i a, (i, a) ∈ done ↔ i < executed.length ∧ lasts i a) :
    (∀ x ∈ left, executed.length ≤ x.1 ∧ lasts x.1 x.2) ∧
      ∀ a, lasts executed.length a → left.head? = some (executed.length, a) := by
  have increasing := whole.increasing
  rw [hsplit, List.pairwise_append] at increasing
  obtain ⟨-, hleft, hacross⟩ := increasing
  have later : ∀ x ∈ left, executed.length ≤ x.1 ∧ lasts x.1 x.2 := by
    intro x hx
    have hlasts := ((whole.lasting x.1 x.2).mp (by rw [hsplit]; exact List.mem_append_right _ hx)).2
    refine ⟨?_, hlasts⟩
    by_contra hlt
    have := hacross x ((hdone x.1 x.2).mpr ⟨by omega, hlasts⟩) x hx
    omega
  refine ⟨later, fun a hlasts => ?_⟩
  have hmem : (executed.length, a) ∈ done ++ left := by
    rw [← hsplit, whole.lasting]
    exact ⟨by simp, hlasts⟩
  have hmem : (executed.length, a) ∈ left := by
    rcases List.mem_append.mp hmem with hmem | hmem
    · exact absurd ((hdone _ _).mp hmem).1 (lt_irrefl _)
    · exact hmem
  cases left with
  | nil => cases hmem
  | cons x left =>
    rcases List.mem_cons.mp hmem with rfl | hmem
    · rfl
    · have := (List.pairwise_cons.mp hleft).1 _ hmem
      have := (later x List.mem_cons_self).1
      omega

section Carry

variable {d : Domain} {base : Network} {round : Round} {lasts : ℕ → Action → Prop}
  {schedule : List Action} {network : Network} {pairs : List (ℕ × Action)}
  (distinguishes : Distinguishes d round)
  (whole : Lists base (During d round lasts) round.found.commands schedule network pairs)
include distinguishes whole

theorem Paired.pass {c : Call} {rest : List Call} {planned : List Action} {l : Live}
    (h : Paired base (During d round lasts) round pairs (c :: rest) planned l) (s : State)
    (other : ∀ a ∈ planned.head?, a.command.same c = false) :
    Paired base (During d round lasts) round pairs rest planned (l.after c s) := by
  obtain ⟨hcommands, begun, done, left, hsplit, hplanned, hdone⟩ := h
  rw [hcommands] at whole
  have instant : ∀ a, ¬ During d round lasts l.executed.length a := by
    intro a hlasts
    have hhead := (whole.next hsplit hdone.lasting).2 a hlasts
    obtain ⟨e, planned⟩ := (during_iff_plannedAt begun).mp hlasts
    have hc : c = a.command := by
      have := whole.commands (l.executed.length, a) ((whole.lasting _ _).mpr ⟨by simp, hlasts⟩)
      simpa using this
    have differs := other a (by rw [hplanned, List.head?_map, hhead]; rfl)
    rw [hc, distinguishes.itself _ a e planned] at differs
    cases differs
  refine ⟨?_, ?_, done, left, hsplit, hplanned, hdone.pass c instant⟩
  · rw [hcommands]
    simp [Live.after]
  · simp only [Live.after, List.length_append]
    omega

theorem Paired.keep {c : Call} {rest : List Call} {a : Action} {planned : List Action}
    {l kept : Live}
    (h : Paired base (During d round lasts) round pairs (c :: rest) (a :: planned) l) (s : State)
    (same : a.command.same c = true) (hkept : l.keep c a = .ok kept) :
    Paired base (During d round lasts) round pairs rest planned (kept.after c s) := by
  obtain ⟨hcommands, begun, done, left, hsplit, hplanned, hdone⟩ := h
  have found := whole
  rw [hcommands] at found
  obtain ⟨later, next⟩ := found.next hsplit hdone.lasting
  cases left with
  | nil => cases hplanned
  | cons x left =>
    obtain ⟨i, b⟩ := x
    obtain ⟨rfl, rfl⟩ := List.cons.inj hplanned
    obtain ⟨hle, hlasts⟩ := later (i, a) List.mem_cons_self
    have hplace : i = l.executed.length := by
      -- for an action of a later place the next command would last, and have the first pair
      by_contra hne
      have hlt : l.executed.length < i := by omega
      obtain ⟨e, planned⟩ := (during_iff_plannedAt (by omega)).mp hlasts
      obtain ⟨b, e', earlier⟩ := distinguishes.earlier l.executed.length i a e c planned begun hlt
        (by rw [hcommands]; simp) same
      have hhead := next b (.inr ⟨e', earlier⟩)
      exact hne (Prod.mk.inj (Option.some.inj hhead)).1
    subst hplace
    have hc : c = a.command := by
      have := found.commands (l.executed.length, a) (by rw [hsplit]; simp)
      simpa using this
    subst hc
    obtain ⟨hone, hschedule, hexecuted⟩ := keep_booksOne l kept a hkept
    have only : ∀ b, During d round lasts l.executed.length b ↔ b = a := by
      intro b
      constructor
      · intro hb
        have hhead := next b hb
        exact (Prod.mk.inj (Option.some.inj hhead)).2.symm
      · rintro rfl
        exact hlasts
    have listed := hdone.book a kept.network only hone
    rw [← hschedule, ← hexecuted] at listed
    refine ⟨?_, ?_, done ++ [(kept.executed.length, a)], left, ?_, rfl, listed⟩
    · rw [hcommands]
      simp [Live.after, hexecuted]
    · simp only [Live.after, List.length_append, hexecuted]
      omega
    · rw [hsplit, hexecuted]
      simp

end Carry

/-- What is carried out of the plan that a round found is listed again. -/
theorem carryOut_lists {d : Domain} {base : Network} (round : Round) {lasts : ℕ → Action → Prop}
    {old : List (ℕ × Action)}
    (before : Lists base lasts round.before.executed round.before.schedule round.before.network old)
    (hfound : Extends d (round.before.root []) round.found)
    (distinguishes : Distinguishes d round) (l' : Live) (failed : Option Call)
    (trials : List Trial)
    (h : Live.carryOutRecorded d (round.found.commands.drop round.before.executed.length)
      (round.found.schedule.drop round.before.schedule.length) round.before =
        .ok ((l', failed), trials)) :
    ∃ pairs, Lists base (During d round lasts) l'.executed l'.schedule l'.network pairs := by
  obtain ⟨new, whole⟩ := round_lists round before hfound
  obtain ⟨added, hadded, -⟩ := hfound
  have hcommands : round.found.commands = round.before.executed ++ added := hadded
  have start : Paired base (During d round lasts) round (old ++ new)
      (round.found.commands.drop round.before.executed.length)
      (round.found.schedule.drop round.before.schedule.length) round.before := by
    refine ⟨?_, le_rfl, old, new, rfl, ?_, lists_during round before⟩
    · rw [hcommands, List.drop_left' rfl]
    · rw [whole.schedule, before.schedule, List.map_append, List.drop_left' rfl]
  obtain ⟨-, -, -, -, done, -, -, -, hdone⟩ := carryOut_induction
    (Paired base (During d round lasts) round (old ++ new)) d _ _ round.before l' failed trials h
    start (fun c rest planned l s hl other => hl.pass distinguishes whole s other)
    (fun c rest a planned l kept s hl same hkept => hl.keep distinguishes whole s same hkept)
  exact ⟨done, hdone⟩

/-! ### Over all rounds -/

theorem unfolds_head (d : Domain) (l : Live) (rounds : List Round) (p : Plan)
    (h : Unfolds d l rounds p) : rounds.head?.map Round.before = some l := by
  cases h <;> rfl

theorem unfolds_begun (d : Domain) (l : Live) (rounds : List Round) (p : Plan)
    (h : Unfolds d l rounds p) :
    ∀ round ∈ rounds, l.executed.length ≤ round.before.executed.length := by
  induction h with
  | last l l' n trials hfound hcarried => simp
  | again l l' n failed trials rounds p hfound hcarried hrest ih =>
    obtain ⟨-, -, hexecuted, -⟩ :=
      carryOutRecorded_carriedOut d _ _ l l' (some failed) trials hcarried
    intro round hround
    rcases List.mem_cons.mp hround with rfl | hround
    · exact le_rfl
    · have := ih round hround
      rw [hexecuted, List.length_append] at this
      omega

/-- Up to the place where the next round begins, a round decides what lasts in the whole run. -/
theorem during_iff_lastsAt (d : Domain) (rounds front later : List Round) (round : Round)
    (hrounds : rounds = front ++ round :: later) (i : ℕ) (a : Action)
    (hlater : ∀ r ∈ later, i < r.before.executed.length) :
    During d round (LastsAt d rounds) i a ↔ LastsAt d rounds i a := by
  constructor
  · rintro (⟨-, h⟩ | ⟨e, planned⟩)
    · exact h
    · exact ⟨round, e, ⟨front, later, hrounds, planned.le, hlater⟩, planned⟩
  · rintro ⟨round', e, hby, planned⟩
    by_cases hi : i < round.before.executed.length
    · exact .inl ⟨hi, round', e, hby, planned⟩
    · have : round' = round :=
        plannedBy_unique rounds round' round i hby ⟨front, later, hrounds, by omega, hlater⟩
      exact .inr ⟨e, this ▸ planned⟩

/-- The induction is on the rounds that are left. In all of them but the last the planned actions
are matched with the commands that are carried out. -/
theorem unfolds_lists {d : Domain} {base : Network} (rounds : List Round) (l : Live)
    (left : List Round) (p : Plan) (hunfolds : Unfolds d l left p) (front : List Round)
    (hrounds : rounds = front ++ left) (distinguish : ∀ round ∈ left.dropLast, Distinguishes d round)
    (hl : ∃ old, Lists base (LastsAt d rounds) l.executed l.schedule l.network old) :
    ∃ pairs, Lists base (LastsAt d rounds) p.commands p.schedule p.network pairs := by
  induction hunfolds generalizing front with
  | last l l' n trials hfound hcarried =>
    obtain ⟨old, hl⟩ := hl
    obtain ⟨new, hn⟩ := round_lists ⟨l, n, trials⟩ hl hfound
    refine ⟨old ++ new, hn.congr fun i a _ => ?_⟩
    exact during_iff_lastsAt d rounds front [] _ hrounds i a (by simp)
  | again l l' n failed trials later p hfound hcarried hrest ih =>
    obtain ⟨old, hl⟩ := hl
    have hlater : later ≠ [] := by
      cases hrest <;> simp
    rw [List.dropLast_cons_of_ne_nil hlater] at distinguish
    obtain ⟨done, hdone⟩ := carryOut_lists ⟨l, n, trials⟩ hl hfound
      (distinguish _ List.mem_cons_self) l' _ trials hcarried
    refine ih (front ++ [⟨l, n, trials⟩]) (by rw [hrounds]; simp)
      (fun round hround => distinguish round (List.mem_cons_of_mem _ hround)) ⟨done, ?_⟩
    refine hdone.congr fun i a hi => ?_
    refine during_iff_lastsAt d rounds front later _ hrounds i a fun round hround => ?_
    exact lt_of_lt_of_le hi (unfolds_begun d l' later p hrest round hround)

theorem lists_start (base : Network) (lasts : ℕ → Action → Prop) :
    Lists base lasts [] [] base [] := by
  refine ⟨rfl, .nil, by simp, by simp, ?_, fun p hp => .inl hp⟩
  simp

/-- The schedule of a successful run lists the commands of its plan that last, and their bookings
are all that the network of the plan has beside the base network. A command that lasts in a round
that fails must count as the same as no earlier one of its plan that takes no time. -/
theorem schedule_lists_lasting (clock : Clock) (d : Domain) (config : PlannerConfig) (s : State)
    (entries : List Entry) (r : PlanResult) (p : Plan)
    (h : plan clock d config s entries = .ok r) (hp : r.plan = .ok p) :
    ∃ rounds, planRecorded clock d config s entries = .ok (r, rounds) ∧
      ((∀ round ∈ rounds.dropLast, Distinguishes d round) →
        ∃ pairs, Lists config.network (LastsAt d rounds) p.commands p.schedule p.network pairs) := by
  obtain ⟨rounds, hrec⟩ := plan_recorded clock d config s entries r h
  refine ⟨rounds, hrec, fun distinguish => ?_⟩
  have start := lists_start config.network (LastsAt d rounds)
  cases hmode : config.execute with
  | true =>
    have hunfolds := planRecorded_unfolds clock d config s entries r rounds p hmode hrec hp
    exact unfolds_lists rounds _ rounds p hunfolds [] rfl distinguish ⟨[], start⟩
  | false =>
    obtain ⟨n, hfound, hrounds, rfl⟩ :=
      planRecorded_dry clock d config s entries r rounds p hmode hrec hp
    obtain ⟨new, hn⟩ := round_lists ⟨Live.start s config.network, n, []⟩ start hfound
    refine ⟨[] ++ new, hn.congr fun i a _ => ?_⟩
    exact during_iff_lastsAt d rounds [] [] _ hrounds i a (by simp)

/-- Every command counts as the same as itself, and as no other. -/
def Apart (commands : List Call) : Prop :=
  (∀ c ∈ commands, c.same c = true) ∧ commands.Pairwise fun c c' => c'.same c = false

instance (commands : List Call) : Decidable (Apart commands) :=
  inferInstanceAs (Decidable (_ ∧ _))

/-- A plan in which no command is repeated has no command to be taken for another one. -/
theorem distinguishes_of_apart (d : Domain) (round : Round) (h : Apart round.found.commands) :
    Distinguishes d round := by
  have command : ∀ i a e, PlannedAt d round i a e →
      round.found.commands[i]? = some a.command := by
    rintro i a e ⟨-, -, -, -, hc, -⟩
    exact hc
  constructor
  · intro i a e planned
    exact h.1 _ (List.mem_of_getElem? (command i a e planned))
  · intro i j a e c planned _ hlt hc same
    obtain ⟨hi, rfl⟩ := List.getElem?_eq_some_iff.mp hc
    obtain ⟨hj, ha⟩ := List.getElem?_eq_some_iff.mp (command j a e planned)
    have other := List.pairwise_iff_getElem.mp h.2 i j hi hj hlt
    rw [ha, same] at other
    cases other

namespace Delivery

/-- Something is carried before the letter is, and again in the second round. -/
def parcel : List Entry := .item (.command ⟨.str "carry", []⟩) :: entries

theorem carried_as_listed : ∃ r p rounds,
    plan Clock.stopped domain config State.empty parcel = .ok r ∧
    r.plan = .ok p ∧ planRecorded Clock.stopped domain config State.empty parcel = .ok (r, rounds) ∧
    rounds.length = 2 ∧ (∀ round ∈ rounds.dropLast, Distinguishes domain round) ∧
    p.commands.map Call.text = ["carry()", "stamp()", "carry()", "carry()"] ∧
    p.schedule.length = 3 ∧
    ∃ pairs, Lists config.network (LastsAt domain rounds) p.commands p.schedule p.network pairs := by
  obtain ⟨r, p, rounds, h, hp, hrec, hread⟩ := exists_recorded Clock.stopped domain config
    State.empty parcel (fun p rounds =>
      (rounds.length, decide (∀ round ∈ rounds.dropLast, Apart round.found.commands),
        p.commands.map Call.text, p.schedule.length))
    (2, true, ["carry()", "stamp()", "carry()", "carry()"], 3) (by decide +kernel)
  simp only [Prod.mk.injEq, decide_eq_true_eq] at hread
  obtain ⟨hlength, hapart, hcommands, hschedule⟩ := hread
  have distinguish : ∀ round ∈ rounds.dropLast, Distinguishes domain round :=
    fun round hround => distinguishes_of_apart domain round (hapart round hround)
  obtain ⟨rounds', hrec', hlists⟩ :=
    schedule_lists_lasting Clock.stopped domain config State.empty parcel r p h hp
  rw [hrec] at hrec'
  cases hrec'
  exact ⟨r, p, rounds, h, hp, hrec, hlength, distinguish, hcommands, hschedule, hlists distinguish⟩

end Delivery

/-! ### A command taken for another one

The first stamp inks the pad in no time, the second one would last, and between them the letter is
mailed in vain. The first one is then listed and booked with the time of the second. -/

namespace Office
open Journey (note command method)

def inked (s : State) : Bool :=
  (s.read { category := defaultCategory, name := .str "inked", entities := [] }).truthy

def stamp (s : State) : Outcome :=
  if inked s then
    .lasting { state := note "stamped" s, duration := .int 5, deadline := .null, release := .null }
  else .state (note "inked" s)

def domain : Domain :=
  { Domain.empty "office" with
    commands := [
      ("stamp", command "stamp" 0 stamp),
      ("mail", command "mail" 1 fun s => .state (note "sent" s)),
      ("carry", command "carry" 2 fun s => .state (note "sent" s))]
    tasks := [
      ("deliver", [method "by mail" 3 ["stamp", "mail", "stamp"], method "by hand" 4 ["carry"]])]
    actuators := [("mail", command "counter" 5 fun _ => .refused (.str "closed"))] }

/-- Only a stamp lasts, and only once the pad is inked. -/
theorem lasting_stamp (c : Call) (f : Callback (List Value)) (s : State) (e : Lasting)
    (hf : Domain.registered? c.name domain.commands = .ok (some f))
    (hrun : f.run s c.args = .ok (.lasting e)) : c.name.text = "stamp" ∧ inked s = true := by
  obtain ⟨name, hname, hf⟩ := mem_of_registered _ _ _ hf
  simp only [domain, List.mem_cons, Prod.mk.injEq, List.not_mem_nil, or_false] at hf
  rcases hf with ⟨rfl, rfl⟩ | ⟨-, rfl⟩ | ⟨-, rfl⟩
  · rw [hname]
    refine ⟨rfl, ?_⟩
    by_contra dry
    simp [command, stamp, dry] at hrun
  · cases hrun
  · cases hrun

/-- In the first round the pad is dry at the first stamp, and the second plan carries the letter. -/
theorem nothing_lasts (first second : Round)
    (hfirst : first.before = Live.start State.empty Delivery.config.network)
    (hsecond : second.before.executed.length = 1)
    (hnames : second.found.commands.map (fun c => c.name.text) = ["stamp", "carry"]) (i : ℕ)
    (a : Action) (hi : i < 2) : ¬ LastsAt domain [first, second] i a := by
  rintro ⟨round, e, hby, node, f, m, hle, hc, hreplay, hf, hrun, -⟩
  obtain ⟨hname, hinked⟩ := lasting_stamp a.command f node.state e hf hrun
  obtain rfl | rfl : i = 0 ∨ i = 1 := by omega
  · have begun : first.before.executed.length ≤ 0 := by
      rw [hfirst]
      exact le_rfl
    have hround : round = first := by
      refine plannedBy_unique _ _ _ 0 hby ⟨[], [second], rfl, begun, ?_⟩
      simp [hsecond]
    rw [hround, hfirst, List.take_zero, List.drop_nil] at hreplay
    have hnode := Option.some.inj (Except.ok.inj hreplay)
    rw [← hnode] at hinked
    revert hinked
    decide +kernel
  · have hround : round = second := by
      refine plannedBy_unique _ _ _ 1 hby ⟨[first], [], rfl, hsecond.le, ?_⟩
      simp
    have hcarry : (round.found.commands.map fun c => c.name.text)[1]? = some "carry" := by
      rw [hround, hnames]
      rfl
    rw [List.getElem?_map, hc, Option.map_some, hname] at hcarry
    revert hcarry
    decide

theorem listed_in_vain : ∃ r p rounds,
    plan Clock.stopped domain Delivery.config State.empty Delivery.entries = .ok r ∧ r.plan = .ok p ∧
    planRecorded Clock.stopped domain Delivery.config State.empty Delivery.entries =
      .ok (r, rounds) ∧
    p.commands.map Call.text = ["stamp()", "carry()"] ∧
    p.schedule.map (fun a => a.command.text) = ["stamp()"] ∧
    p.network.points = ["origin", "stamp@0_end", "stamp@0_start"] ∧
    (∀ i a, i < p.commands.length → ¬ LastsAt domain rounds i a) ∧
    ¬ ∃ pairs, Lists Delivery.config.network (LastsAt domain rounds) p.commands p.schedule
      p.network pairs := by
  obtain ⟨r, p, rounds, h, hp, hrec, hread⟩ := exists_recorded Clock.stopped domain
    Delivery.config State.empty Delivery.entries (fun p rounds =>
      ([p.commands.map Call.text, p.schedule.map fun a => a.command.text, p.network.points],
        rounds.map fun round => (round.before.executed.length,
          round.found.commands.map fun c => c.name.text)))
    ([["stamp()", "carry()"], ["stamp()"], ["origin", "stamp@0_end", "stamp@0_start"]],
      [(0, ["stamp", "mail", "stamp"]), (1, ["stamp", "carry"])]) (by decide +kernel)
  simp only [Prod.mk.injEq, List.cons.injEq, and_true] at hread
  obtain ⟨⟨hcommands, hschedule, hpoints⟩, hrounds⟩ := hread
  have hunfolds := planRecorded_unfolds Clock.stopped domain Delivery.config State.empty
    Delivery.entries r rounds p rfl hrec hp
  have hhead := unfolds_head domain _ rounds p hunfolds
  obtain ⟨first, later, rfl, hfirst, hlater⟩ := List.map_eq_cons_iff.mp hrounds
  obtain ⟨second, rfl, hsecond⟩ := List.map_eq_singleton_iff.mp hlater
  obtain ⟨hbegun, hnames⟩ := Prod.mk.inj hsecond
  have hlength : p.commands.length = 2 := by simpa using congrArg List.length hcommands
  have instant : ∀ i a, i < p.commands.length → ¬ LastsAt domain [first, second] i a :=
    fun i a hi => nothing_lasts first second (Option.some.inj hhead) hbegun hnames i a
      (hlength ▸ hi)
  refine ⟨r, p, [first, second], h, hp, hrec, hcommands, hschedule, hpoints, instant, ?_⟩
  rintro ⟨pairs, lists⟩
  rw [lists.schedule] at hschedule
  obtain ⟨x, hx, -⟩ := List.map_eq_singleton_iff.mp ((List.map_map ..).symm.trans hschedule)
  obtain ⟨hi, hlasts⟩ := (lists.lasting x.1 x.2).mp (by simp [hx])
  exact instant x.1 x.2 hi hlasts

end Office

end Chronoplan
