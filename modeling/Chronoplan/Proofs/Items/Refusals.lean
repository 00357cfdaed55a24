import Chronoplan.CommandLine.Plan
import Chronoplan.Proofs.Items

/-!
# Mappings that describe no work item

A mapping that describes no item is refused, and the refusal names what is wrong with it, so the
file it comes from is blamed. The exception is a mapping that asks for goals and gives a value that
no loop runs through: the fault is then that of the loop, and nobody is blamed for it.
-/

set_option autoImplicit false

namespace Chronoplan
namespace WorkItem

open CommandLine

theorem Uncounted.ofValue_eq {data : Value} (h : Uncounted data) :
    ofValue data = .error .illTyped := by
  obtain ⟨⟨args, hargs⟩, earlier, v, given, single⟩ := h
  have counted : v.elements = .error .illTyped :=
    (Value.elements_eq_error_iff v .illTyped).mpr ⟨single, rfl⟩
  simp only [Lacks, List.forall_mem_cons] at earlier
  obtain ⟨command, task, unigoal, -⟩ := earlier
  cases data with
  | dict kvs =>
    rw [ofValue, hargs, ok_bind, command, task, unigoal, given]
    simp only [counted, error_bind]
  | _ => cases given

/-- Where the goals can be run through, only a refusal that a file is blamed for stops the
reading. -/
theorem refused_of_error {data : Value} {f : Fault} (fault : ofValue data = .error f)
    (counted : ¬Uncounted data) : Reading data (.error f) ∧ blamesProblem f = true := by
  have read := reading data
  rw [fault] at read
  refine ⟨read, ?_⟩
  cases read with
  | uncounted h => exact absurd h counted
  | _ => rfl

/-- A document is read as an item, or it is refused for a reason that a problem file is blamed for,
unless it asks for goals that no loop runs through: null or a number. A list of items is read or
refused when none of its entries asks for such goals. -/
theorem read_or_refused (data : Value) (document : data.isDocument = true) :
    ((∃ i, ofValue data = .ok i) ∨
      (∃ f, ofValue data = .error f ∧ Reading data (.error f) ∧ blamesProblem f = true) ↔
      ¬Uncounted data) ∧
    (Uncounted data → ofValue data = .error .illTyped ∧
      (data.field? "multigoal" = some .null ∨ ∃ n, data.field? "multigoal" = some (.num n))) ∧
    ∀ entries, data = .list entries → (∀ entry ∈ entries, ¬Uncounted entry) →
      (∃ is, listOfValue data = .ok is) ∨
      ∃ f, listOfValue data = .error f ∧ (∃ entry ∈ entries, Reading entry (.error f)) ∧
        blamesProblem f = true := by
  refine ⟨⟨?_, fun counted => ?_⟩, fun uncounted => ⟨uncounted.ofValue_eq, ?_⟩, ?_⟩
  · rintro (⟨i, read⟩ | ⟨f, fault, -, blamed⟩) uncounted
    · rw [uncounted.ofValue_eq] at read
      cases read
    · rw [uncounted.ofValue_eq] at fault
      cases fault
      cases blamed
  · cases read : ofValue data with
    | ok i => exact .inl ⟨i, rfl⟩
    | error f => exact .inr ⟨f, rfl, refused_of_error read counted⟩
  · obtain ⟨-, -, v, given, single⟩ := uncounted
    obtain rfl | ⟨n, rfl⟩ :=
      (Value.isSingle_document (Value.field?_document document given)).mp single
    · exact .inl given
    · exact .inr ⟨n, given⟩
  · rintro entries rfl counted
    cases read : listOfValue (.list entries) with
    | ok is => exact .inl ⟨is, rfl⟩
    | error f =>
      obtain ⟨entry, listed, fault⟩ := error_of_mapM ofValue entries f read
      obtain ⟨reads, blamed⟩ := refused_of_error fault (counted entry listed)
      exact .inr ⟨f, rfl, ⟨entry, listed, reads⟩, blamed⟩

end WorkItem

namespace Depot

def halfOrder : Value := .dict [(.str "unigoal", .str "at"), (.str "entity", .str "crate")]

def goals (v : Value) : Value := .dict [(.str "multigoal", v)]

/-- An order without a target is refused, alone and behind one that can be read. -/
theorem halfOrder_refused :
    (∃ f, WorkItem.ofValue halfOrder = .error f ∧ WorkItem.Reading halfOrder (.error f) ∧
      CommandLine.blamesProblem f = true) ∧
    ∃ f, WorkItem.listOfValue (.list [order, halfOrder]) = .error f ∧
      CommandLine.blamesProblem f = true := by
  have counted : ¬WorkItem.Uncounted order := by
    rintro ⟨-, -, v, given, single⟩
    simp only [order, Value.field?, Value.lookup, Table.find?, Value.alike_str, beq_self_eq_true,
      if_true, Option.some.injEq] at given
    cases given
    cases single
  have counted' : ¬WorkItem.Uncounted halfOrder := by
    rintro ⟨-, -, v, given, -⟩
    simp [halfOrder, Value.field?, Value.lookup, Table.find?] at given
  have half : (WorkItem.ofValue halfOrder).toOption.isNone = true := by decide +kernel
  have both : (WorkItem.listOfValue (.list [order, halfOrder])).toOption.isNone = true := by
    decide +kernel
  obtain ⟨alone, -, -⟩ := WorkItem.read_or_refused halfOrder rfl
  obtain ⟨-, -, together⟩ := WorkItem.read_or_refused (.list [order, halfOrder]) rfl
  constructor
  · obtain ⟨i, read⟩ | refused := alone.mpr counted'
    · rw [read] at half
      cases half
    · exact refused
  · obtain ⟨is, read⟩ | ⟨f, fault, -, blamed⟩ := together _ rfl (by simpa using ⟨counted, counted'⟩)
    · rw [read] at both
      cases both
    · exact ⟨f, fault, blamed⟩

/-- A number of goals is not refused, and the problem file is not blamed for it. -/
theorem goals_uncounted : (goals (.int 5)).isDocument = true ∧
    WorkItem.ofValue (goals (.int 5)) = .error .illTyped ∧
    WorkItem.listOfValue (.list [goals (.int 5)]) = .error .illTyped ∧
    CommandLine.blamesProblem .illTyped = false := by
  have alone : WorkItem.ofValue (goals (.int 5)) = .error .illTyped := by
    simp [goals, WorkItem.ofValue, WorkItem.argsOf, Value.field?, Value.lookup, Table.find?,
      Value.elements]
  have listed : WorkItem.listOfValue (.list [goals (.int 5)]) = .error .illTyped := by
    simp [WorkItem.listOfValue, Value.elements, alone]
  exact ⟨rfl, alone, listed, rfl⟩

end Depot

end Chronoplan
