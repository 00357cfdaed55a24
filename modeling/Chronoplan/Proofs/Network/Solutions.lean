import Chronoplan.Proofs.Network.Writes

/-!
# Solutions of a network

A solution gives every point an integer time such that every stored bound contains the time
between its points. A reachable network is found consistent exactly when it has a solution, and a
derived bound contains exactly the times between its points that solutions attain.
-/

set_option autoImplicit false

namespace Chronoplan
namespace Network

/-- Every stored bound contains the time between its points. -/
def Solves (n : Network) (t : String → ℤ) : Prop :=
  ∀ e ∈ n.constraints, e.2.contains (.int (t e.1.2 - t e.1.1)) = true

def byPlace (n : Network) (t : String → ℤ) (i : ℕ) : ℤ := t (n.points.getD i "")

theorem byPlace_placeIn (n : Network) (t : String → ℤ) (p : String) (hp : p ∈ n.points) :
    n.byPlace t (placeIn n.points p) = t p := by
  rw [byPlace, List.getD_eq_getElem?_getD, (place?_of_mem n.points p hp).2, Option.getD_some]

section WellFormed

variable (n : Network) (w : n.WellFormed)
include w

theorem meets_iff (t : ℕ → ℤ) :
    Distances.Meets n.size t n.distances ↔ n.Solves fun p => t (placeIn n.points p) :=
  Distances.meets_ofConstraints n.points n.constraints t
    (fun e he => ⟨(w e he).first, (w e he).second⟩) fun e he => (w e he).integral

theorem meets_byPlace_iff (t : String → ℤ) :
    Distances.Meets n.size (n.byPlace t) n.distances ↔ n.Solves t := by
  rw [n.meets_iff w]
  refine forall₂_congr fun e he => ?_
  simp only [n.byPlace_placeIn t _ (w e he).first, n.byPlace_placeIn t _ (w e he).second]

theorem solvable_iff : (∃ t, n.Solves t) ↔ ∀ i < n.size, 0 ≤ n.closed i i := by
  rw [closed, ← Distances.exists_meets_iff n.size n.distances fun i _ =>
    Distances.ofConstraints_diagonal n.points n.constraints i]
  constructor
  · rintro ⟨t, h⟩
    exact ⟨n.byPlace t, (n.meets_byPlace_iff w t).mpr h⟩
  · rintro ⟨t, h⟩
    exact ⟨_, (n.meets_iff w t).mp h⟩

theorem attained_iff (h : ∀ i < n.size, 0 ≤ n.closed i i) (u v : String) (hu : u ∈ n.points)
    (hv : v ∈ n.points) (d : ℤ) :
    (∃ t, n.Solves t ∧ t v - t u = d) ↔
      ((-d : ℤ) : WithTop ℤ) ≤ n.closed (placeIn n.points v) (placeIn n.points u) ∧
        (d : WithTop ℤ) ≤ n.closed (placeIn n.points u) (placeIn n.points v) := by
  rw [closed, ← Distances.exists_meets_apart_iff n.size n.distances
    (fun i _ => Distances.ofConstraints_diagonal n.points n.constraints i) h _ _
    (placeIn_lt n.points u hu) (placeIn_lt n.points v hv) d]
  constructor
  · rintro ⟨t, ht, apart⟩
    refine ⟨n.byPlace t, (n.meets_byPlace_iff w t).mpr ht, ?_⟩
    rw [n.byPlace_placeIn t u hu, n.byPlace_placeIn t v hv, apart]
  · rintro ⟨t, ht, apart⟩
    exact ⟨_, (n.meets_iff w t).mp ht, apart⟩

theorem isConsistent_eq_ok_iff (b : Bool) :
    n.isConsistent = .ok b ↔ n.Addable ∧ b = n.report.consistent := by
  rw [isConsistent, bind_eq_ok_iff]
  constructor
  · rintro ⟨r, hr, hb⟩
    obtain ⟨ha, rfl⟩ := (check_eq_ok_iff n w r).mp hr
    exact ⟨ha, (Except.ok.inj hb).symm⟩
  · rintro ⟨ha, rfl⟩
    exact ⟨n.report, (check_eq_ok_iff n w _).mpr ⟨ha, rfl⟩, rfl⟩

theorem isConsistent_true_iff :
    n.isConsistent = .ok true ↔ n.Addable ∧ ∃ t, n.Solves t := by
  rw [n.isConsistent_eq_ok_iff w, n.solvable_iff w, ← n.report_consistent, eq_comm]

end WellFormed
end Network

/-! ## A relay

The second leg takes as long as it wants, within the time for both. -/

namespace Relay

def first : Network := Network.standard.addBound "start" "handover" ⟨.int 10, .int 20⟩

def second : Network := first.addBound "handover" "finish" ⟨.int 5, .posInf⟩

def network : Network := second.addBound "start" "finish" ⟨.int 0, .int 40⟩

theorem network_constraints : network.constraints = [
    (("start", "handover"), ⟨.int 10, .int 20⟩), (("handover", "start"), ⟨.int (-20), .int (-10)⟩),
    (("handover", "finish"), ⟨.int 5, .posInf⟩), (("finish", "handover"), ⟨.negInf, .int (-5)⟩),
    (("start", "finish"), ⟨.int 0, .int 40⟩), (("finish", "start"), ⟨.int (-40), .int 0⟩)] := rfl

theorem network_reachable : network.Reachable := by
  have start : Network.standard.Reachable := .empty .second .medium false 4
  have infinite : (Value.float .posInf).Integral := by
    rintro x ⟨⟩
    exact ⟨⊤, .inl rfl⟩
  have one : first.Reachable := .write _ _ (.bound "start" "handover" (.int 10) (.int 20)) start
    ⟨.ofInt 10, .ofInt 20⟩ rfl
  have two : second.Reachable := .write _ _
    (.bound "handover" "finish" (.int 5) (.float .posInf)) one ⟨.ofInt 5, infinite⟩ rfl
  exact .write _ _ (.bound "start" "finish" (.int 0) (.int 40)) two ⟨.ofInt 0, .ofInt 40⟩ rfl

theorem network_consistent : network.isConsistent = .ok true := by rfl

end Relay

/-! ## What the check decides -/

/-- The check of a reachable network ends exactly when no integer is too large for it, and it then
tells whether the network has a solution. -/
theorem Network.isConsistent_iff_solvable (n : Network) (r : n.Reachable) :
    (n.Addable ↔ ∃ b, n.isConsistent = .ok b) ∧
      ∀ b, n.isConsistent = .ok b → (b = true ↔ ∃ t, n.Solves t) := by
  have w := r.wellFormed
  constructor
  · constructor
    · intro ha
      exact ⟨_, (n.isConsistent_eq_ok_iff w _).mpr ⟨ha, rfl⟩⟩
    · rintro ⟨b, hb⟩
      exact ((n.isConsistent_eq_ok_iff w b).mp hb).1
  · intro b hb
    obtain ⟨-, rfl⟩ := (n.isConsistent_eq_ok_iff w b).mp hb
    rw [n.report_consistent, n.solvable_iff w]

theorem Relay.solvable :
    Relay.network.Reachable ∧ Relay.network.Addable ∧ ∃ t, Relay.network.Solves t := by
  obtain ⟨ends, tells⟩ := Relay.network.isConsistent_iff_solvable Relay.network_reachable
  exact ⟨Relay.network_reachable, ends.mpr ⟨true, Relay.network_consistent⟩,
    (tells true Relay.network_consistent).mp rfl⟩

/-- A bound derived in a consistent network contains exactly the times that solutions attain. -/
theorem Network.derived_iff_attained (n : Network) (r : n.Reachable) (c : n.isConsistent = .ok true)
    (u v : String) (hu : u ∈ n.points) (hv : v ∈ n.points) :
    ∃ b, n.derived u v = .ok b ∧
      ∀ d : ℤ, b.contains (.int d) = true ↔ ∃ t, n.Solves t ∧ t v - t u = d := by
  have w := r.wellFormed
  obtain ⟨ha, hc⟩ := (n.isConsistent_eq_ok_iff w true).mp c
  have hcheck := (check_eq_ok_iff n w n.report).mpr ⟨ha, rfl⟩
  refine ⟨.ofDistances (n.closed (placeIn n.points v) (placeIn n.points u))
    (n.closed (placeIn n.points u) (placeIn n.points v)), ?_, fun d => ?_⟩
  · rw [derived, hcheck, ok_bind, n.report_derived u v hu hv]
  · rw [Bound.contains_ofDistances,
      n.attained_iff w (n.report_consistent.mp hc.symm) u v hu hv d]

/-- The second leg can take any time between its least one and what the first leg leaves. -/
theorem Relay.second_leg :
    Relay.network.Reachable ∧ Relay.network.isConsistent = .ok true ∧
      "handover" ∈ Relay.network.points ∧ "finish" ∈ Relay.network.points ∧
      ∀ d : ℤ, 5 ≤ d ∧ d ≤ 30 ↔ ∃ t, Relay.network.Solves t ∧ t "finish" - t "handover" = d := by
  have handover : "handover" ∈ Relay.network.points := by decide
  have finish : "finish" ∈ Relay.network.points := by decide
  refine ⟨Relay.network_reachable, Relay.network_consistent, handover, finish, fun d => ?_⟩
  obtain ⟨b, hb, attained⟩ := Relay.network.derived_iff_attained Relay.network_reachable
    Relay.network_consistent "handover" "finish" handover finish
  have tight : Relay.network.derived "handover" "finish" = .ok ⟨.int 5, .int 30⟩ := by rfl
  rw [tight] at hb
  cases hb
  rw [← attained d]
  simp [Bound.contains]

end Chronoplan
