import Chronoplan.Proofs.Planner.Placing
import Chronoplan.Proofs.Planner.Rounds

/-!
# Commands that failed when they were carried out

A run that carries its plans out searches again after a command that failed. The command is on the
blacklist by then, and every way into a plan is past the blacklist. So the log of a run falls into
rounds, each a search and the calls that follow it, with a longer blacklist from round to round.
-/

set_option autoImplicit false

namespace Chronoplan
open Exploration

/-! ### The blacklist -/

namespace Blacklist

theorem contains_eq_false (b : Blacklist) (c : Call) (h : b.contains c = .ok false) :
    ∀ e ∈ b, e.same c = false := by
  obtain ⟨c', hchecked, h⟩ := (bind_eq_ok_iff _ _ _).mp h
  have hc : c = c' := by
    unfold checked at hchecked
    split at hchecked
    · exact Except.ok.inj hchecked
    · cases hchecked
  subst hc
  simpa using Except.ok.inj h

theorem add_unlisted (b : Blacklist) (c : Call) (h : b.contains c = .ok false) :
    b.add c = .ok (b ++ [c]) := by
  simp [add, h]

end Blacklist

/-- What is made sure of before a command is added to a branch. -/
structure Blacklist.Admits (b : Blacklist) (c : Call) : Prop where
  unlisted : b.contains c = .ok false
  writable : c.isWritable = true

theorem perform_admits (ctx : Setting) (node n : Node) (c : Call)
    (h : perform ctx node c = .ok (.proceed n)) : ctx.blacklist.Admits c := by
  obtain ⟨f, outcome, -, unlisted, -, h⟩ := (perform_proceed_iff ctx node n c).mp h
  obtain ⟨s, -, writable, -⟩ | ⟨e, network, a, -, hplaced, -⟩ :=
    (settle_proceed_iff node n c outcome).mp h
  · exact ⟨unlisted, writable⟩
  · exact ⟨unlisted, place_writable node c e network a hplaced⟩

theorem arrives_admits (ctx : Setting) (node n : Node) (h : Arrives ctx node (.found n)) :
    ∃ added, n.commands = node.commands ++ added ∧ ∀ c ∈ added, ctx.blacklist.Admits c := by
  generalize he : Ending.found n = ending at h
  induction h with
  | found node hp =>
    cases he
    exact ⟨[], (List.append_nil _).symm, by simp⟩
  | failed => cases he
  | fatal => cases he
  | refined node front rest item depth methods m expansion ending hp ht hm hr hn ih => exact ih he
  | proceed node n' front rest ending hp ht hn ih =>
    obtain ⟨added, hadded, admitted⟩ := ih he
    obtain rfl | ⟨c, depth, -, hc⟩ := turn_proceed ctx _ n' front ht
    · exact ⟨added, hadded, admitted⟩
    · obtain ⟨-, hcommands⟩ := perform_enact ctx _ n' c hc
      refine ⟨c :: added, ?_, List.forall_mem_cons.mpr ⟨perform_admits ctx _ n' c hc, admitted⟩⟩
      rw [hadded, hcommands, List.append_assoc]
      rfl

/-- The commands of a plan that are new in it are not on the blacklist and can be written. -/
theorem search_admits (ctx : Setting) (root n : Node) (j j' : Journal)
    (h : search ctx root j = .ok (.found n, j')) :
    ∀ c ∈ n.commands.drop root.commands.length, ctx.blacklist.Admits c := by
  obtain ⟨choice, hc⟩ := search_found ctx root n j j' h
  obtain ⟨added, hadded, admitted⟩ := arrives_admits ctx root n (follow_arrives ctx choice _ _ hc)
  rwa [hadded, List.drop_left]

/-! ### Carrying out -/

/-- Calls that all succeed lead from one live state of affairs to another. -/
structure Went (l : Live) (log : List Deed) (l' : Live) : Prop where
  unsought : questsOf log = []
  unfailing : failuresOf log = []
  state : l'.state = reachedBy l.state log
  executed : l'.executed = l.executed ++ executedIn log

/-- The log of commands that are carried out: calls that do not fail, up to one that does. -/
inductive CarriesOut (l : Live) : List Deed → Except Fault (Live × Option Call) → Prop
  | unfailing (log : List Deed) (result : Except Fault (Live × Option Call))
    (unsought : questsOf log = []) (unfailing : failuresOf log = [])
    (whole : ∀ l' c, result ≠ .ok (l', some c)) : CarriesOut l log result
  | failing (log : List Deed) (l' : Live) (c : Call) (deed : Deed) (went : Went l log l')
    (fails : deed.Fails c l'.state) : CarriesOut l (log ++ [deed]) (.ok (l', some c))

/-- A call that succeeds comes before the others. -/
theorem CarriesOut.cons {l l' : Live} {c : Call} {s : State} {outcome : Outcome} {log : List Deed}
    {result : Except Fault (Live × Option Call)} (reached : outcome.reached? = some s)
    (state : l'.state = s) (executed : l'.executed = l.executed ++ [c])
    (h : CarriesOut l' log result) : CarriesOut l (.call c l.state (.ok outcome) :: log) result := by
  have succeeds : (Deed.call c l.state (.ok outcome)).failed? = none := by
    simp [Deed.failed?, reached]
  cases h with
  | unfailing _ _ unsought unfailing whole =>
    exact .unfailing _ _ unsought ((List.filterMap_cons_none succeeds).trans unfailing) whole
  | failing log l'' c' deed went fails =>
    refine .failing (.call c l.state (.ok outcome) :: log) l'' c' deed ?_ fails
    constructor
    · exact went.unsought
    · exact (List.filterMap_cons_none succeeds).trans went.unfailing
    · rw [went.state, state]
      simp [reachedBy, Deed.after, reached]
    · rw [went.executed, executed, List.append_assoc]
      simp [executedIn, Deed.done?, reached]

namespace Live

theorem carryOutLogged_carriesOut (d : Domain) (commands : List Call) (planned : List Action)
    (l : Live) : CarriesOut l (carryOutLogged d commands planned l).log
      (carryOutLogged d commands planned l).result := by
  induction commands generalizing planned l with
  | nil => exact .unfailing _ _ rfl rfl (by rintro l' c ⟨⟩)
  | cons c rest ih =>
    have called : (answerLogged d l.state c).result = answer d l.state c := rfl
    rw [carryOutLogged]
    cases hc : answer d l.state c with
    | error e =>
      rw [Logged.log_bind_error (called.trans hc), Logged.result_bind, called, hc]
      refine .unfailing _ _ rfl ?_ (by rintro l' c ⟨⟩)
      simp [answerLogged, hc, failuresOf, Deed.failed?]
    | ok outcome =>
      rw [Logged.log_bind_ok (called.trans hc), Logged.result_bind, called, hc]
      simp only [answerLogged, hc, ok_bind]
      cases hs : outcome.reached? with
      | none =>
        have went : Went l [] l := ⟨rfl, rfl, rfl, (List.append_nil _).symm⟩
        exact .failing [] l c _ went ⟨outcome, rfl, hs⟩
      | some s =>
        simp only
        cases hkept : l.keepAny c (nextAction c planned).1 with
        | error e =>
          rw [Logged.log_bind_error rfl, Logged.result_bind]
          refine .unfailing _ _ rfl ?_ (by rintro l' c ⟨⟩)
          simp [failuresOf, Deed.failed?, hs]
        | ok kept =>
          rw [Logged.log_bind_ok rfl, Logged.result_bind]
          obtain ⟨-, executed⟩ := keepAny_frame l kept c _ hkept
          refine (ih _ (kept.after c s)).cons hs rfl ?_
          simp [Live.after, executed]

end Live

/-! ### From round to round -/

/-- A search for the rest of the plan under a blacklist, from what has been carried out. -/
structure Quest.Resumes (q : Quest) (entries : List Entry) (b : Blacklist) (l : Live) : Prop where
  root : q.root = l.root entries
  blacklist : q.setting.blacklist = b

/-- No call is that of a command on the blacklist. -/
def Unlisted (b : Blacklist) (log : List Deed) : Prop :=
  ∀ e ∈ b, ∀ c ∈ callsOf log, e.same c = false

/-- A round that ends with a call that fails. -/
structure Fruitless (entries : List Entry) (b : Blacklist) (l : Live) (q : Quest) (log : List Deed)
    (l' : Live) (c : Call) (deed : Deed) : Prop where
  resumes : q.Resumes entries b l
  unlisted : Unlisted b (log ++ [deed])
  went : Went l log l'
  fails : deed.Fails c l'.state

/-- The log of a run that goes through rounds. A command that fails ends its round, and is on the
blacklist in the next one, if there is any. -/
inductive Chronicle (entries : List Entry) : Blacklist → ℕ → Live → List Deed → Prop
  | ending (b : Blacklist) (replans : ℕ) (l : Live) (q : Quest) (log : List Deed)
    (resumes : q.Resumes entries b l) (unlisted : Unlisted b log) (unsought : questsOf log = [])
    (unfailing : failuresOf log = []) : Chronicle entries b replans l (.search q :: log)
  | last (b : Blacklist) (l l' : Live) (q : Quest) (log : List Deed) (c : Call) (deed : Deed)
    (round : Fruitless entries b l q log l' c deed) :
    Chronicle entries b 0 l (.search q :: (log ++ [deed]))
  | again (b : Blacklist) (replans : ℕ) (l l' : Live) (q : Quest) (log later : List Deed) (c : Call)
    (deed : Deed) (round : Fruitless entries b l q log l' c deed)
    (rest : Chronicle entries (b ++ [c]) replans l' later) :
    Chronicle entries b (replans + 1) l (.search q :: (log ++ deed :: later))

theorem unlisted_of_called (b : Blacklist) (commands : List Call) (log : List Deed)
    (unlisted : ∀ c ∈ commands, b.contains c = .ok false)
    (called : ∀ deed ∈ log, ∃ c ∈ commands, deed.called? = some c) : Unlisted b log := by
  intro e he c hc
  obtain ⟨deed, hdeed, hcall⟩ := List.mem_filterMap.mp hc
  obtain ⟨c', hc', hcall'⟩ := called deed hdeed
  obtain rfl : c = c' := Option.some.inj (hcall.symm.trans hcall')
  exact b.contains_eq_false c (unlisted c hc') e he

/-- The induction is on the replans that are left. -/
theorem runLiveLogged_chronicle (ctx : Setting) (entries : List Entry) (replans : ℕ) (l : Live)
    (j : Journal) : Chronicle entries ctx.blacklist replans l
      (runLiveLogged ctx entries replans l j).log := by
  induction replans using Nat.strong_induction_on generalizing ctx l j with
  | _ replans ih =>
    let q : Quest := { setting := ctx, root := l.root entries, journal := j }
    have resumes : q.Resumes entries ctx.blacklist l := ⟨rfl, rfl⟩
    have searched : (searchLogged ctx (l.root entries) j).result = search ctx (l.root entries) j :=
      rfl
    have alone : Chronicle entries ctx.blacklist replans l [.search q] :=
      .ending _ _ _ q [] resumes (by rintro e - c ⟨⟩) rfl rfl
    rw [runLiveLogged.eq_def]
    cases hs : search ctx (l.root entries) j with
    | error e =>
      rw [Logged.log_bind_error (searched.trans hs)]
      exact alone
    | ok ended =>
      rw [Logged.log_bind_ok (searched.trans hs)]
      obtain ⟨v, j'⟩ := ended
      cases v with
      | failed f => exact alone
      | found n =>
        have admitted := search_admits ctx (l.root entries) n j j' hs
        have unlisted := fun c hc => (admitted c hc).unlisted
        have called := Live.called_of_carryOutLogged ctx.domain
          (n.commands.drop l.executed.length) (n.schedule.drop l.schedule.length) l
        have carries := Live.carryOutLogged_carriesOut ctx.domain
          (n.commands.drop l.executed.length) (n.schedule.drop l.schedule.length) l
        simp only
        generalize Live.carryOutLogged ctx.domain (n.commands.drop l.executed.length)
          (n.schedule.drop l.schedule.length) l = carried at called carries ⊢
        obtain ⟨log, result⟩ := carried
        have hunlisted := unlisted_of_called ctx.blacklist _ log unlisted called
        cases carries with
        | unfailing _ _ unsought unfailing whole =>
          have ending := Chronicle.ending ctx.blacklist replans l q log resumes hunlisted unsought
            unfailing
          cases result with
          | error e =>
            rw [Logged.log_bind_error rfl]
            exact ending
          | ok carried =>
            rw [Logged.log_bind_ok rfl]
            obtain ⟨l', failed⟩ := carried
            cases failed with
            | none => simpa [searchLogged] using ending
            | some c => exact absurd rfl (whole l' c)
        | failing log l' c deed went fails =>
          have round : Fruitless entries ctx.blacklist l q log l' c deed :=
            ⟨resumes, hunlisted, went, fails⟩
          have added : ctx.blacklist.add c = .ok (ctx.blacklist ++ [c]) := by
            obtain ⟨c', hc', hcalled⟩ := called deed (by simp)
            obtain rfl : c = c' := Option.some.inj (fails.called.symm.trans hcalled)
            exact Blacklist.add_unlisted _ c (unlisted c hc')
          rw [Logged.log_bind_ok rfl]
          simp only [added]
          rw [Logged.log_bind_ok rfl]
          cases replans with
          | zero =>
            have last := Chronicle.last _ l l' q log c deed round
            cases hw : (Value.int ctx.config.budgets.maxReplans).isWritable with
            | false => simpa [searchLogged, hw, Logged.log_bind_error] using last
            | true => simpa [searchLogged, hw, Logged.log_bind_ok] using last
          | succ replans =>
            have rest := ih replans (Nat.lt_succ_self _)
              { ctx with blacklist := ctx.blacklist ++ [c] } l' (j'.replan c)
            simpa [searchLogged] using Chronicle.again _ replans l l' q log _ c deed round rest

/-- Every command that is called was written when it was planned. So it is not asked once more
whether the texts of a command that is carried out, or fails, can be written. -/
theorem runLiveLogged_writable (ctx : Setting) (entries : List Entry) (replans : ℕ) (l : Live)
    (j : Journal) : ∀ deed ∈ (runLiveLogged ctx entries replans l j).log,
      ∀ c, deed.called? = some c → c.isWritable = true := by
  induction replans using Nat.strong_induction_on generalizing ctx l j with
  | _ replans ih =>
    intro deed hdeed c hcalled
    rw [runLiveLogged.eq_def] at hdeed
    obtain hdeed | ⟨⟨v, j'⟩, hs, hdeed⟩ := (Logged.mem_log_bind _ _ deed).mp hdeed
    · obtain rfl := List.mem_singleton.mp hdeed
      cases hcalled
    · cases v with
      | failed f => cases hdeed
      | found n =>
        obtain hdeed | ⟨⟨l', failed⟩, -, hdeed⟩ := (Logged.mem_log_bind _ _ deed).mp hdeed
        · obtain ⟨c', hc', hcalled'⟩ := Live.called_of_carryOutLogged _ _ _ _ _ hdeed
          obtain rfl : c = c' := Option.some.inj (hcalled.symm.trans hcalled')
          exact (search_admits ctx (l.root entries) n j j' hs c hc').writable
        · cases failed with
          | none => cases hdeed
          | some c' =>
            obtain hdeed | ⟨blacklist, -, hdeed⟩ := (Logged.mem_log_bind _ _ deed).mp hdeed
            · cases hdeed
            · cases replans with
              | zero =>
                obtain hdeed | ⟨_, -, hdeed⟩ := (Logged.mem_log_bind _ _ deed).mp hdeed
                · cases hdeed
                · cases hdeed
              | succ replans =>
                exact ih replans (Nat.lt_succ_self _) _ _ _ deed hdeed c hcalled

/-! ### Never again -/

theorem failed_eq_none {log : List Deed} (h : failuresOf log = []) :
    ∀ deed ∈ log, deed.failed? = none :=
  List.filterMap_eq_nil_iff.mp h

theorem unlisted_append_iff (b : Blacklist) (log later : List Deed) :
    Unlisted b (log ++ later) ↔ Unlisted b log ∧ Unlisted b later := by
  simp only [Unlisted, callsOf, List.filterMap_append, List.forall_mem_append, forall_and]

theorem unlisted_concat_iff (b : Blacklist) (c : Call) (log : List Deed) :
    Unlisted (b ++ [c]) log ↔ Unlisted b log ∧ ∀ c' ∈ callsOf log, c.same c' = false := by
  simp only [Unlisted, List.forall_mem_append, List.forall_mem_singleton]

/-- No command on the blacklist is called in any later round. -/
theorem Chronicle.unlisted {entries : List Entry} {b : Blacklist} {replans : ℕ} {l : Live}
    {log : List Deed} (h : Chronicle entries b replans l log) : Unlisted b log := by
  induction h with
  | ending b replans l q log resumes unlisted unsought unfailing => exact unlisted
  | last b l l' q log c deed round => exact round.unlisted
  | again b replans l l' q log later c deed round rest ih =>
    have hlater := ((unlisted_concat_iff b c later).mp ih).1
    have both := (unlisted_append_iff b _ later).mpr ⟨round.unlisted, hlater⟩
    rwa [List.append_assoc] at both

/-- When the first deed is a failing call, the second is not a call of the same command. -/
def Deed.NeverAgain (deed later : Deed) : Prop :=
  ∀ c c', deed.failed? = some c → later.called? = some c' → c.same c' = false

theorem pairwise_neverAgain (log later : List Deed) (unfailing : failuresOf log = [])
    (h : later.Pairwise Deed.NeverAgain) : (log ++ later).Pairwise Deed.NeverAgain := by
  have vacuous : ∀ deed ∈ log, ∀ deed' : Deed, deed.NeverAgain deed' := by
    intro deed hdeed deed' c c' hc
    rw [failed_eq_none unfailing deed hdeed] at hc
    cases hc
  rw [List.pairwise_append]
  refine ⟨?_, h, fun deed hdeed deed' _ => vacuous deed hdeed deed'⟩
  exact List.pairwise_of_forall_mem_list fun deed hdeed deed' _ => vacuous deed hdeed deed'

theorem Chronicle.neverAgain {entries : List Entry} {b : Blacklist} {replans : ℕ} {l : Live}
    {log : List Deed} (h : Chronicle entries b replans l log) :
    log.Pairwise Deed.NeverAgain := by
  induction h with
  | ending b replans l q log resumes unlisted unsought unfailing =>
    simpa using pairwise_neverAgain (.search q :: log) [] unfailing .nil
  | last b l l' q log c deed round =>
    exact pairwise_neverAgain (.search q :: log) _ round.went.unfailing (List.pairwise_singleton _ _)
  | again b replans l l' q log later c deed round rest ih =>
    refine pairwise_neverAgain (.search q :: log) _ round.went.unfailing ?_
    refine List.pairwise_cons.mpr ⟨?_, ih⟩
    intro deed' hdeed c₁ c₂ hfailed hcalled
    obtain rfl : c = c₁ := Option.some.inj (round.fails.failed.symm.trans hfailed)
    have listed := ((unlisted_concat_iff b c later).mp rest.unlisted).2
    exact listed c₂ (List.mem_filterMap.mpr ⟨deed', hdeed, hcalled⟩)

theorem pairwise_failuresOf {log : List Deed} (h : log.Pairwise Deed.NeverAgain) :
    (failuresOf log).Pairwise fun c c' => c.same c' = false := by
  refine List.Pairwise.filterMap Deed.failed? ?_ h
  intro deed deed' never c hc c' hc'
  obtain ⟨s, fails⟩ := (Deed.failed_eq_some_iff deed' c').mp hc'
  exact never c c' hc fails.called

/-! ### How often, and from where -/

section

variable {deed : Deed} {c : Call} {s : State} (h : deed.Fails c s) (q : Quest)
  (log later : List Deed)
include h

theorem questsOf_round : questsOf (.search q :: (log ++ deed :: later)) =
    q :: (questsOf log ++ questsOf later) := by
  have first : (Deed.search q).quest? = some q := rfl
  rw [questsOf, List.filterMap_cons_some first, List.filterMap_append,
    List.filterMap_cons_none h.quest]
  rfl

theorem failuresOf_round : failuresOf (.search q :: (log ++ deed :: later)) =
    failuresOf log ++ c :: failuresOf later := by
  have first : (Deed.search q).failed? = none := rfl
  rw [failuresOf, List.filterMap_cons_none first, List.filterMap_append,
    List.filterMap_cons_some h.failed]
  rfl

theorem executedIn_round : executedIn (.search q :: (log ++ deed :: later)) =
    executedIn log ++ executedIn later := by
  have first : (Deed.search q).done? = none := rfl
  rw [executedIn, List.filterMap_cons_none first, List.filterMap_append,
    List.filterMap_cons_none h.done]
  rfl

theorem reachedBy_round (s₀ : State) : reachedBy s₀ (.search q :: (log ++ deed :: later)) =
    reachedBy (reachedBy s₀ log) later := by
  rw [reachedBy, List.foldl_cons, List.foldl_append, List.foldl_cons, h.after]
  rfl

end

theorem Chronicle.few {entries : List Entry} {b : Blacklist} {replans : ℕ} {l : Live}
    {log : List Deed} (h : Chronicle entries b replans l log) :
    (failuresOf log).length ≤ replans + 1 ∧ (questsOf log).length ≤ replans + 1 := by
  induction h with
  | ending b replans l q log resumes unlisted unsought unfailing =>
    have failures : failuresOf (.search q :: log) = [] := unfailing
    have quests : questsOf (.search q :: log) = q :: questsOf log := rfl
    rw [failures, quests, unsought]
    simp
  | last b l l' q log c deed round =>
    rw [failuresOf_round round.fails, questsOf_round round.fails, round.went.unfailing,
      round.went.unsought]
    exact ⟨le_refl 1, le_refl 1⟩
  | again b replans l l' q log later c deed round rest ih =>
    rw [failuresOf_round round.fails, questsOf_round round.fails, round.went.unfailing,
      round.went.unsought]
    exact ⟨Nat.succ_le_succ ih.1, Nat.succ_le_succ ih.2⟩

/-- A failing call in a log that has none up to some place is there or later. -/
theorem eq_or_later_of_failed {log later front rest : List Deed} {deed deed' : Deed} {c : Call}
    (unfailing : failuresOf log = []) (hfailed : deed'.failed? = some c)
    (h : log ++ deed :: later = front ++ deed' :: rest) :
    (front = log ∧ deed' = deed ∧ rest = later) ∨
      ∃ front', front = log ++ deed :: front' ∧ later = front' ++ deed' :: rest := by
  obtain ⟨between, rfl, hrest⟩ | ⟨between, rfl, hrest⟩ := List.append_eq_append_iff.mp h
  · cases between with
    | nil =>
      obtain ⟨rfl, rfl⟩ := List.cons.inj hrest
      exact .inl ⟨List.append_nil _, rfl, rfl⟩
    | cons x front' =>
      obtain ⟨rfl, hlater⟩ := List.cons.inj hrest
      exact .inr ⟨front', rfl, hlater⟩
  · cases between with
    | nil =>
      obtain ⟨rfl, rfl⟩ := List.cons.inj hrest
      exact .inl ⟨(List.append_nil _).symm, rfl, rfl⟩
    | cons x between =>
      obtain ⟨rfl, -⟩ := List.cons.inj hrest
      rw [failed_eq_none unfailing deed' (by simp)] at hfailed
      cases hfailed

/-- After a failing call the run goes on, while replans are left, by a search from the live state
that the call was made on, with the commands that were carried out so far. -/
def Resumption (entries : List Entry) (replans : ℕ) (l : Live) (front : List Deed) (before : State)
    (rest : List Deed) : Prop :=
  before = reachedBy l.state front ∧
    ((failuresOf front).length < replans → ∃ q later b l', rest = .search q :: later ∧
      q.Resumes entries b l' ∧ l'.state = before ∧ l'.executed = l.executed ++ executedIn front)

theorem Chronicle.head {entries : List Entry} {b : Blacklist} {replans : ℕ} {l : Live}
    {log : List Deed} (h : Chronicle entries b replans l log) :
    ∃ q later, log = .search q :: later ∧ q.Resumes entries b l := by
  cases h with
  | ending _ _ _ q log resumes => exact ⟨q, log, rfl, resumes⟩
  | last _ _ _ q log c deed round => exact ⟨q, _, rfl, round.resumes⟩
  | again _ _ _ _ q log later c deed round => exact ⟨q, _, rfl, round.resumes⟩

theorem Chronicle.resumption {entries : List Entry} {b : Blacklist} {replans : ℕ} {l : Live}
    {log : List Deed} (h : Chronicle entries b replans l log) (front rest : List Deed)
    (deed : Deed) (c : Call) (before : State) (fails : deed.Fails c before)
    (hlog : log = front ++ deed :: rest) : Resumption entries replans l front before rest := by
  have failed := fails.failed
  induction h generalizing front with
  | ending b replans l q log resumes unlisted unsought unfailing =>
    have none_failed : ∀ deed ∈ Deed.search q :: log, deed.failed? = none :=
      failed_eq_none unfailing
    rw [none_failed deed (by rw [hlog]; simp)] at failed
    cases failed
  | last b l l' q log c' deed' round =>
    have unfailing : failuresOf (.search q :: log) = [] := round.went.unfailing
    obtain ⟨rfl, rfl, rfl⟩ | ⟨front', -, hlater⟩ := eq_or_later_of_failed unfailing failed hlog
    · obtain ⟨-, rfl⟩ := fails.unique round.fails
      exact ⟨round.went.state, fun left => absurd left (Nat.not_lt_zero _)⟩
    · simp at hlater
  | again b replans l l' q log later c' deed' round hlaters ih =>
    have unfailing : failuresOf (.search q :: log) = [] := round.went.unfailing
    obtain ⟨rfl, rfl, rfl⟩ | ⟨front', rfl, hlater⟩ := eq_or_later_of_failed unfailing failed hlog
    · obtain ⟨-, rfl⟩ := fails.unique round.fails
      obtain ⟨q', later, rfl, resumes⟩ := hlaters.head
      exact ⟨round.went.state, fun _ => ⟨q', later, _, l', rfl, resumes, rfl, round.went.executed⟩⟩
    · obtain ⟨state, goesOn⟩ := ih front' hlater
      rw [List.cons_append]
      constructor
      · rw [state, reachedBy_round round.fails, round.went.state]
      · intro left
        rw [failuresOf_round round.fails, round.went.unfailing] at left
        obtain ⟨q', later', b', l'', hrest, resumes, state', executed⟩ :=
          goesOn (Nat.lt_of_succ_lt_succ left)
        refine ⟨q', later', b', l'', hrest, resumes, state', ?_⟩
        rw [executed, executedIn_round round.fails, round.went.executed, List.append_assoc]

/-! ### Planning -/

theorem planLogged_chronicle (clock : Clock) (d : Domain) (config : PlannerConfig) (s : State)
    (entries : List Entry) (hexec : config.execute = true) :
    (planLogged clock d config s entries).log = [] ∨
      Chronicle entries [] config.budgets.maxReplans.toNat (Live.start s config.network)
        (planLogged clock d config s entries).log := by
  rw [planLogged_log]
  simp only [runLogged, hexec, if_true]
  cases hv : d.validate with
  | error e => exact .inl (Logged.log_bind_error rfl _)
  | ok _ =>
    right
    rw [Logged.log_bind_ok rfl]
    exact runLiveLogged_chronicle { domain := d, config, blacklist := [], clock } entries _ _ _

/-- A command that failed when it was carried out is never called again in the run, whether the
run comes to a result or to a fault. So each command fails once at most, no more calls fail than
one and the replans, and there are no more searches. After a failing call other than the last that
is allowed, a search for the whole list of entries is next. It starts from the live state that the
call was made on, and its plans begin with the commands that were carried out. -/
theorem plan_failed_calls (clock : Clock) (d : Domain) (config : PlannerConfig) (s : State)
    (entries : List Entry) (hexec : config.execute = true)
    (hreplans : 0 ≤ config.budgets.maxReplans) :
    (planLogged clock d config s entries).result = plan clock d config s entries ∧
    ∀ log, (planLogged clock d config s entries).log = log →
      log.Pairwise Deed.NeverAgain ∧
      (failuresOf log).Pairwise (fun c c' => c.same c' = false) ∧
      ((failuresOf log).length : ℤ) ≤ config.budgets.maxReplans + 1 ∧
      ((questsOf log).length : ℤ) ≤ config.budgets.maxReplans + 1 ∧
      ∀ front deed rest c before, deed.Fails c before → log = front ++ deed :: rest →
        before = reachedBy s front ∧
        ((failuresOf front).length < config.budgets.maxReplans → ∃ q later,
          rest = .search q :: later ∧ q.root.state = before ∧
          q.root.commands = executedIn front ∧
          q.root.pending = entries.map (fun e => .work e 0) ∧
          ∀ n j, search q.setting q.root q.journal = .ok (.found n, j) →
            executedIn front <+: n.commands) := by
  refine ⟨planLogged_result clock d config s entries, ?_⟩
  rintro log rfl
  rcases planLogged_chronicle clock d config s entries hexec with none_done | chronicle
  · rw [none_done]
    refine ⟨.nil, .nil, ?_, ?_, ?_⟩
    · simp only [failuresOf, List.filterMap_nil, List.length_nil]
      omega
    · simp only [questsOf, List.filterMap_nil, List.length_nil]
      omega
    · intro front deed rest c before _ hlog
      simp at hlog
  · obtain ⟨failures, quests⟩ := chronicle.few
    have never := chronicle.neverAgain
    refine ⟨never, pairwise_failuresOf never, by omega, by omega, ?_⟩
    intro front deed rest c before fails hlog
    obtain ⟨state, goesOn⟩ := chronicle.resumption front rest deed c before fails hlog
    refine ⟨state, fun left => ?_⟩
    obtain ⟨q, later, b, l, hrest, resumes, hstate, executed⟩ := goesOn (by omega)
    have commands : q.root.commands = executedIn front := by
      rw [resumes.root]
      exact executed
    refine ⟨q, later, hrest, ?_, commands, ?_, ?_⟩
    · rw [resumes.root]
      exact hstate
    · rw [resumes.root]
      rfl
    · intro n j hs
      rw [resumes.root] at hs
      obtain ⟨added, hadded, -⟩ := search_extends _ entries l n _ j hs
      rw [hadded, ← commands, resumes.root]
      exact List.prefix_append _ _

namespace Delivery

/-- The letter is mailed in vain once, and the next search begins with the stamp on it. -/
theorem mailed_once : config.execute = true ∧ 0 ≤ config.budgets.maxReplans ∧
    ∃ log, (planLogged Clock.stopped domain config State.empty entries).log = log ∧
    (callsOf log).map Call.text = ["stamp()", "mail()", "carry()"] ∧
    ∃ front deed c before q later, log = front ++ deed :: .search q :: later ∧
      deed.Fails c before ∧ c.text = "mail()" ∧
      before = reachedBy State.empty front ∧ q.root.state = before ∧
      q.root.commands = executedIn front ∧ (∀ c' ∈ callsOf later, c.same c' = false) := by
  obtain ⟨-, facts⟩ := plan_failed_calls Clock.stopped domain config State.empty entries rfl
    (by decide)
  obtain ⟨never, -, -, -, resumption⟩ := facts _ rfl
  refine ⟨rfl, by decide, _, rfl, ?_⟩
  have calls : (callsOf (planLogged Clock.stopped domain config State.empty entries).log).map
      Call.text = ["stamp()", "mail()", "carry()"] := by decide +kernel
  have failures : (failuresOf (planLogged Clock.stopped domain config State.empty
      entries).log).map Call.text = ["mail()"] := by decide +kernel
  generalize (planLogged Clock.stopped domain config State.empty entries).log = log at *
  obtain ⟨c, hfailed, htext⟩ := List.map_eq_singleton_iff.mp failures
  obtain ⟨front, deed, rest, rfl, before_none, hdeed, -⟩ := List.filterMap_eq_cons_iff.mp hfailed
  obtain ⟨before, fails⟩ := (Deed.failed_eq_some_iff deed c).mp hdeed
  have first : failuresOf front = [] := List.filterMap_eq_nil_iff.mpr before_none
  obtain ⟨state, goesOn⟩ := resumption front deed rest c before fails rfl
  obtain ⟨q, later, rfl, root, commands, -⟩ := goesOn (by rw [first]; decide)
  refine ⟨calls, front, deed, c, before, q, later, rfl, fails, htext, state, root, commands, ?_⟩
  obtain ⟨-, never, -⟩ := List.pairwise_append.mp never
  obtain ⟨never, -⟩ := List.pairwise_cons.mp never
  intro c' hc'
  obtain ⟨deed', hmem, hcalled⟩ := List.mem_filterMap.mp hc'
  exact never deed' (List.mem_cons_of_mem _ hmem) c c' hdeed hcalled

end Delivery

end Chronoplan
