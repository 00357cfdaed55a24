import Chronoplan.CommandLine.Plan
import Chronoplan.Proofs.Settings.Reloading
import Chronoplan.Proofs.Yaml.Readout

/-!
# Sections of settings

A section is read field by field, so a field that is written changes what is read for it and nothing
else. A section that counts as false is read as an empty one, whatever it is, but a field is only
written into a mapping. So the planner can be told to carry its plans out exactly when a file has a
mapping for it or leaves it out, and a file that has nothing behind the name of the section is valid
and stands in the way.
-/

set_option autoImplicit false

namespace Chronoplan

section

variable {α β : Type} (e : Value) (name : String) (standard : α) (read : Value → Except Misfit α)

/-- What is read for a field: the standard value where none is given or the given one misfits. -/
def fieldValue : α := (((e.field? name).map read).bind Except.toOption).getD standard

/-- What is reported for a field. -/
def fieldIssues : List FieldIssue :=
  match (e.field? name).map read with
  | some (.error m) => [{ path := [name], misfit := m }]
  | _ => []

theorem readField_run (issues : List FieldIssue) : (readField e name standard read).run issues =
    (fieldValue e name standard read, issues ++ fieldIssues e name read) := by
  unfold readField fieldValue fieldIssues
  cases e.field? name with
  | none => simp; rfl
  | some v =>
    cases h : read v with
    | ok a => simp [h]; rfl
    | error m => simp [h]; rfl

/-- The next field is read with the issues of the earlier ones. -/
theorem readField_bind_run (next : α → FieldReader β) (issues : List FieldIssue) :
    (readField e name standard read >>= next).run issues =
      (next (fieldValue e name standard read)).run (issues ++ fieldIssues e name read) := by
  rw [StateT.run_bind, readField_run]
  rfl

end

namespace Settings

/-- A planner section in which only the mark for carrying out differs is read with that mark. -/
theorem readPlanner_execute {e e' : Value} {p : PlannerSettings}
    (others : ∀ name, name ≠ "execute" → e'.field? name = e.field? name)
    (given : e'.field? "execute" = some (.bool true))
    (read : (readPlanner e).run [] = (p, [])) :
    (readPlanner e').run [] = ({ p with execute := true }, []) := by
  have value : ∀ {α : Type} (name : String) (standard : α) (read : Value → Except Misfit α),
      name ≠ "execute" → fieldValue e' name standard read = fieldValue e name standard read := by
    intro α name standard read other
    rw [fieldValue, fieldValue, others name other]
  have issues : ∀ {α : Type} (name : String) (read : Value → Except Misfit α),
      name ≠ "execute" → fieldIssues e' name read = fieldIssues e name read := by
    intro α name read other
    rw [fieldIssues, fieldIssues, others name other]
  have on : fieldValue e' "execute" false Field.readTruth = true := by
    rw [fieldValue, given]
    rfl
  have fits : fieldIssues e' "execute" Field.readTruth = [] := by
    rw [fieldIssues, given]
    rfl
  simp only [readPlanner, readField_bind_run] at read ⊢
  obtain ⟨rfl, clean⟩ := Prod.mk.inj read
  obtain ⟨earlier, -⟩ := List.append_eq_nil_iff.mp clean
  simp (disch := decide) only [value, issues, on, fits, earlier, List.append_nil]
  rfl

/-! ### Reading a section -/

section

variable {α : Type} {s : Settings} {name model : String} {read : Value → FieldReader α} {a : α}

/-- A section that is a mapping is read without issues, or it is reported. -/
theorem readSection_eq_ok_iff {l : Nat} {t : Linked.Entries}
    (found : lookup (.str name) s.entries = some (.dict l t)) :
    s.readSection name model read = .ok a ↔
      (read (.dict (Linked.toEntries t))).run [] = (a, []) := by
  -- An empty mapping counts as false, and then an empty mapping is read all the same.
  have given : ((((lookup (.str name) s.entries).map Linked.toValue).filter Value.truthy).getD
      (.dict [])) = .dict (Linked.toEntries t) := by
    rw [found, Option.map_some, Linked.toValue]
    cases Linked.toEntries t <;> rfl
  simp only [readSection, given]
  split
  · next b clean =>
    rw [clean]
    exact ⟨fun same => (by cases same; rfl), fun same => (by cases same; rfl)⟩
  · next b issues other reported =>
    refine iff_of_false (by rintro ⟨⟩) fun clean => ?_
    exact other (Prod.mk.inj (reported.symm.trans clean)).2

/-- What is read as a section is a mapping or counts as false. -/
theorem isMapping_of_readSection (valid : s.readSection name model read = .ok a) {v : Linked}
    (found : lookup (.str name) s.entries = some v) (truthy : v.toValue.truthy = true) :
    v.toValue.isMapping = true := by
  have given : ((((lookup (.str name) s.entries).map Linked.toValue).filter Value.truthy).getD
      (.dict [])) = v.toValue := by
    rw [found, Option.map_some, Option.filter_some_pos truthy, Option.getD_some]
  simp only [readSection, given] at valid
  split at valid
  · next shape => rw [shape]; rfl
  · cases valid

/-- What is read as a section depends only on what is there. -/
theorem readSection_congr {s' : Settings}
    (same : lookup (.str name) s'.entries = lookup (.str name) s.entries) :
    s'.readSection name model read = s.readSection name model read := by
  rw [readSection, readSection, same]

end

/-! ### Writing a field of a section -/

section

variable {s : Settings} {path name field : String} (keys : splitText '.' path = [name, field])
  (v : Value)
include keys

theorem set_field {t : Linked.Entries} (found : lookup (.str name) s.entries = some (.dict 0 t)) :
    s.set path v = .ok ⟨s.entries.insert Value.alike (.str name)
      (.dict 0 (t.insert Value.alike (.str field) (.ofValue v)))⟩ := by
  have alone : owner? [name, field] s.entries = none := by
    rw [owner?, found]
    · rfl
    · exact List.cons_ne_nil field []
  rw [set, keys, alone, put_cons, found]
  rfl

/-- A field is not written into what is no mapping. -/
theorem set_field_refused {x : Linked} (found : lookup (.str name) s.entries = some x)
    (other : ∀ l t, x ≠ .dict l t) : s.set path v = .error .illTyped := by
  have alone : owner? [name, field] s.entries = none := by
    rw [owner?, found]
    · cases x with
      | dict l t => exact absurd rfl (other l t)
      | _ => rfl
    · exact List.cons_ne_nil field []
  rw [set, keys, alone, put_cons, found]
  cases x with
  | dict l t => exact absurd rfl (other l t)
  | _ => rfl

end

/-- In a planner section that is a mapping, carrying out is switched on, and nothing else changes in
what is read. -/
theorem set_execute {s : Settings} {p : PlannerSettings} {t : Linked.Entries}
    (found : lookup (.str "planner") s.entries = some (.dict 0 t)) (valid : s.planner = .ok p) :
    ∃ s', s.set "planner.execute" (.bool true) = .ok s' ∧
      s'.planner = .ok { p with execute := true } ∧ s'.networkOptions = s.networkOptions := by
  have keys : splitText '.' "planner.execute" = ["planner", "execute"] := by decide
  refine ⟨_, set_field keys (.bool true) found, ?_, ?_⟩
  · have there := (Value.find?_insert_str "planner" "planner" (.dict 0
      (t.insert Value.alike (.str "execute") (.ofValue (.bool true)))) s.entries).trans (if_pos rfl)
    refine (readSection_eq_ok_iff there).mpr ?_
    have written : ∀ name, Value.field? name (.dict (Linked.toEntries
        (t.insert Value.alike (.str "execute") (.ofValue (.bool true))))) =
        if "execute" = name then some (.bool true)
        else Value.field? name (.dict (Linked.toEntries t)) := by
      intro name
      rw [Value.field?, Value.field?, Linked.lookup_toEntries, Linked.lookup_toEntries, lookup,
        Value.find?_insert_str]
      split
      · rw [Option.map_some, Linked.toValue_ofValue]
      · rfl
    refine readPlanner_execute (fun name other => ?_) ?_ ((readSection_eq_ok_iff found).mp valid)
    · rw [written, if_neg other.symm]
    · rw [written, if_pos rfl]
  · refine readSection_congr ?_
    rw [lookup, Value.find?_insert_str, if_neg (by decide)]
    rfl

/-! ### Sections of a file -/

theorem exists_standard_planner :
    ∃ fields, lookup (.str "planner") standard.entries = some (mapping fields) :=
  ⟨_, standard_indexed.find?_of_mem List.mem_cons_self⟩

/-- The planner section of loaded settings is a mapping of its own, unless the file has something
else in its place. -/
theorem lookup_planner_cases {u : Linked.Entries} (shown : Shown u) :
    (∀ v, lookup (.str "planner") u = some v → v.toValue.isMapping = true) ∧
        (∃ t, lookup (.str "planner") (merge standard.entries u) = some (.dict 0 t)) ∨
      ∃ v, lookup (.str "planner") u = some v ∧ v.toValue.isMapping = false ∧
        (∀ l t, v ≠ .dict l t) ∧ lookup (.str "planner") (merge standard.entries u) = some v := by
  obtain ⟨fields, usual⟩ := exists_standard_planner
  have joined := lookup_merge usual u
  cases found : lookup (.str "planner") u with
  | none =>
    rw [found] at joined
    exact .inl ⟨fun v h => (by cases h), _, joined⟩
  | some v =>
    rw [found] at joined
    obtain ⟨l, inner, rfl⟩ | ⟨other, single⟩ := shown.cases found
    · refine .inl ⟨fun v h => ?_, _, joined⟩
      cases h
      rfl
    · refine .inr ⟨v, rfl, single, other, ?_⟩
      rw [joined]
      exact congrArg some (Linked.mergeValue_of_leaf _ other)

theorem overrides_shown {path text : String} {u : Linked.Entries}
    (h : overrides path text = .ok u) : Shown u := by
  intro e he name key mapping
  unfold overrides at h
  split at h
  · cases h
  · cases h
  · next l t read =>
    cases h
    exact ((Yaml.read_evident read).entries_plain e he name key).cases mapping
  · split at h
    · cases h
    · cases h
      cases he

/-! ### Carrying out from the command line -/

section

open CommandLine

section

variable {folder : Folder} {s : Settings} (r : PlanRequest)
  (chosen : settingsOf folder r.settings = .ok s)
include chosen

theorem plannerConfigOf_execute {s' : Settings} {p : PlannerSettings}
    (written : s.set "planner.execute" (.bool true) = .ok s') (valid : s.planner = .ok p)
    (valid' : s'.planner = .ok { p with execute := true })
    (same : s'.networkOptions = s.networkOptions) :
    plannerConfigOf folder { r with execute := true } =
      (plannerConfigOf folder { r with execute := false }).map
        fun c => { c with execute := true } := by
  have empty : s'.network = s.network := by rw [network, network, same]
  have before : plannerConfigOf folder { r with execute := false } = s.plannerConfig none := by
    simp [plannerConfigOf, chosen]
  have after : plannerConfigOf folder { r with execute := true } = s'.plannerConfig none := by
    simp [plannerConfigOf, chosen, written]
  rw [before, after, plannerConfig, plannerConfig, valid, valid', empty]
  cases s.network <;> rfl

theorem runPlan_execute_refused (clock : Clock) (library : Library)
    (refused : s.set "planner.execute" (.bool true) = .error .illTyped) :
    runPlan clock folder library { r with execute := true } = .error (.unexpected .illTyped) := by
  have stopped : plannerConfigOf folder { r with execute := true } = .error .illTyped := by
    simp [plannerConfigOf, chosen, refused]
  rw [runPlan, stopped]
  rfl

end

/-- In settings of a file whose planner section is valid, carrying out is switched on exactly when
the file has no section of the planner or a mapping there. Then the valid section is the same with
carrying out switched on, and so is what a run is configured with from the command line. In all
other files the section is something that counts as false, which is valid as an empty one; but
nothing can be written into it, and the command line passes the fault on. -/
theorem execution_switched_on {path text : String} {s : Settings} {p : PlannerSettings}
    (loaded : load path (some text) = .ok s) (valid : s.planner = .ok p) :
    ∃ u, overrides path text = .ok u ∧
      ((∃ s', s.set "planner.execute" (.bool true) = .ok s') ↔
        ∀ v, lookup (.str "planner") u = some v → v.toValue.isMapping = true) ∧
      (∀ s', s.set "planner.execute" (.bool true) = .ok s' →
        s'.planner = .ok { p with execute := true } ∧
        ∀ (folder : Folder) (r : PlanRequest), settingsOf folder r.settings = .ok s →
          plannerConfigOf folder { r with execute := true } =
            (plannerConfigOf folder { r with execute := false }).map
              fun c => { c with execute := true }) ∧
      ∀ v, lookup (.str "planner") u = some v → v.toValue.isMapping = false →
        v.toValue.truthy = false ∧ s.set "planner.execute" (.bool true) = .error .illTyped ∧
        ∀ (clock : Clock) (folder : Folder) (library : Library) (r : PlanRequest),
          settingsOf folder r.settings = .ok s →
          runPlan clock folder library { r with execute := true } =
            .error (.unexpected .illTyped) := by
  obtain ⟨_, given, rest⟩ := (bind_eq_ok_iff _ _ _).mp loaded
  cases given
  obtain ⟨u, read, last⟩ := (bind_eq_ok_iff _ _ _).mp rest
  cases last
  refine ⟨u, read, ?_⟩
  obtain ⟨mappings, t, found⟩ | ⟨v, there, single, other, found⟩ :=
    lookup_planner_cases (overrides_shown read)
  · obtain ⟨s', written, valid', same⟩ := set_execute found valid
    refine ⟨iff_of_true ⟨s', written⟩ mappings, fun s'' again => ?_, fun v there single => ?_⟩
    · cases written.symm.trans again
      exact ⟨valid', fun folder r chosen =>
        plannerConfigOf_execute r chosen written valid valid' same⟩
    · rw [mappings v there] at single
      cases single
  · have keys : splitText '.' "planner.execute" = ["planner", "execute"] := by decide
    have refused := set_field_refused keys (.bool true) found other
    refine ⟨iff_of_false ?_ ?_, fun s' written => ?_, fun w here _ => ⟨?_, refused, ?_⟩⟩
    · rintro ⟨s', written⟩
      cases refused.symm.trans written
    · intro mappings
      rw [mappings v there] at single
      cases single
    · cases refused.symm.trans written
    · cases there.symm.trans here
      rw [← Bool.not_eq_true]
      intro truthy
      rw [isMapping_of_readSection valid found truthy] at single
      cases single
    · exact fun clock folder library r chosen =>
        runPlan_execute_refused r chosen clock library refused

end

end Settings

namespace Lighthouse

/-! ### Settings of a lighthouse -/

def manned : String := "planner: {max_steps: 50}\n"

def unmanned : String := "planner:\n"

/-- The settings of a file, what its planner section is read as, and whether the file has a mapping
there. -/
theorem exists_section (text : String) (steps : Int) (mapping : Bool)
    (run : ((Settings.load "lamp.yaml" (some text)).toOption.bind fun s =>
      s.planner.toOption.bind fun p => (Settings.overrides "lamp.yaml" text).toOption.bind fun u =>
        (Settings.lookup (.str "planner") u).map fun v => (p.budgets.maxSteps, v.toValue.isMapping)) =
      some (steps, mapping)) :
    ∃ s p u v, Settings.load "lamp.yaml" (some text) = .ok s ∧ s.planner = .ok p ∧
      Settings.overrides "lamp.yaml" text = .ok u ∧ Settings.lookup (.str "planner") u = some v ∧
      p.budgets.maxSteps = steps ∧ v.toValue.isMapping = mapping := by
  obtain ⟨s, hs, run⟩ := Option.bind_eq_some_iff.mp run
  obtain ⟨p, hp, run⟩ := Option.bind_eq_some_iff.mp run
  obtain ⟨u, hu, run⟩ := Option.bind_eq_some_iff.mp run
  obtain ⟨v, hv, run⟩ := Option.map_eq_some_iff.mp run
  obtain ⟨first, second⟩ := Prod.mk.inj run
  exact ⟨s, p, u, v, toOption_eq_some_iff.mp hs, toOption_eq_some_iff.mp hp,
    toOption_eq_some_iff.mp hu, hv, first, second⟩

/-- With some settings of the planner in its file the lamp is lit, and with none it is not. -/
theorem lamp_lit :
    (∃ s p s', Settings.load "lamp.yaml" (some manned) = .ok s ∧ s.planner = .ok p ∧
      p.budgets.maxSteps = 50 ∧ s.set "planner.execute" (.bool true) = .ok s' ∧
      s'.planner = .ok { p with execute := true }) ∧
    ∃ s p, Settings.load "lamp.yaml" (some unmanned) = .ok s ∧ s.planner = .ok p ∧
      p.budgets.maxSteps = 10000 ∧ s.set "planner.execute" (.bool true) = .error .illTyped := by
  constructor
  · obtain ⟨s, p, u, v, loaded, valid, read, found, steps, mapping⟩ :=
      exists_section manned 50 true (by decide +kernel)
    obtain ⟨u', read', accepted, changed, -⟩ := Settings.execution_switched_on loaded valid
    cases read.symm.trans read'
    obtain ⟨s', written⟩ := accepted.mpr fun w here => by
      cases found.symm.trans here
      exact mapping
    exact ⟨s, p, s', loaded, valid, steps, written, (changed s' written).1⟩
  · obtain ⟨s, p, u, v, loaded, valid, read, found, steps, mapping⟩ :=
      exists_section unmanned 10000 false (by decide +kernel)
    obtain ⟨u', read', -, -, refused⟩ := Settings.execution_switched_on loaded valid
    cases read.symm.trans read'
    exact ⟨s, p, loaded, valid, steps, (refused v found mapping).2.1⟩

/-- An empty section is valid, but it cannot be written into. -/
theorem lamp_stuck : ∃ s p, Settings.load "lamp.yaml" (some unmanned) = .ok s ∧
    s.planner = .ok p ∧ ¬ ∃ s', s.set "planner.execute" (.bool true) = .ok s' := by
  have run : ((Settings.load "lamp.yaml" (some unmanned)).toOption.bind fun s =>
      s.planner.toOption.map fun _ =>
        (s.set "planner.execute" (.bool true)).toOption.isNone) = some true := by decide +kernel
  obtain ⟨s, hs, run⟩ := Option.bind_eq_some_iff.mp run
  obtain ⟨p, hp, stuck⟩ := Option.map_eq_some_iff.mp run
  refine ⟨s, p, toOption_eq_some_iff.mp hs, toOption_eq_some_iff.mp hp, ?_⟩
  rintro ⟨s', written⟩
  rw [toOption_eq_some_iff.mpr written] at stuck
  cases stuck

end Lighthouse

end Chronoplan
