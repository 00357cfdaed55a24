import Chronoplan.Proofs.Yaml.Objects

/-!
# Values of documents

Under a text as its key, a value that is read off stands for itself: only a date or a moment as a
key can carry a link of its own, and a mapping is never hidden in a leaf.
-/

set_option autoImplicit false

namespace Chronoplan

namespace Linked

/-- The value stands for itself, and it is no leaf that hides a mapping. -/
def Plain : Linked → Prop
  | .leaf _ v => v.isMapping = false
  | .keyed _ _ => False
  | _ => True

/-- Plain, and if a mapping, with plain values under texts. -/
structure Evident (v : Linked) : Prop where
  plain : v.Plain
  entries : ∀ l t, v = .dict l t → ∀ e ∈ t, ∀ name, e.1 = .str name → e.2.Plain

theorem Plain.cases {v : Linked} (h : v.Plain) (mapping : v.toValue.isMapping = true) :
    ∃ l t, v = .dict l t := by
  cases v with
  | dict l t => exact ⟨l, t, rfl⟩
  | leaf l v => cases mapping.symm.trans h
  | keyed l v => cases h
  | _ => cases mapping

theorem Plain.bind {v whole : Linked} (link : Nat) (hv : v.Plain) (hw : whole.Plain) :
    (bind link whole v).Plain := by
  cases v with
  | again l mapping =>
    rw [Linked.bind]
    split
    · exact hw
    · trivial
  | keyed l v => cases hv
  | leaf l v => exact hv
  | _ => trivial

theorem mem_bindEntries {link : Nat} {whole : Linked} {t : Entries} {e : Value × Linked}
    (h : e ∈ bindEntries link whole t) : ∃ e' ∈ t, e = (e'.1, bind link whole e'.2) := by
  induction t with
  | nil => cases h
  | cons e' t ih =>
    obtain ⟨k, v⟩ := e'
    rw [bindEntries] at h
    rcases List.mem_cons.mp h with rfl | later
    · exact ⟨(k, v), List.mem_cons_self, rfl⟩
    · obtain ⟨e', he', same⟩ := ih later
      exact ⟨e', List.mem_cons_of_mem _ he', same⟩

/-- The entries of a mapping are plain under texts also when each of them stands for itself. -/
theorem Evident.entries_plain {v : Linked} (h : v.Evident) :
    ∀ e ∈ v.entries, ∀ name, e.1 = .str name → e.2.Plain := by
  cases v with
  | dict l t =>
    intro e he name key
    rw [Linked.entries] at he
    split at he
    · exact h.entries l t rfl e he name key
    · obtain ⟨e', he', rfl⟩ := mem_bindEntries he
      exact (h.entries l t rfl e' he' name key).bind l trivial
  | _ => exact fun e he => absurd he List.not_mem_nil

end Linked

namespace Yaml

namespace Readout

theorem underKey_text {r : Readout} {n : Nat} {name : String} (v : Linked)
    (key : r.objects.getD n none = some (.leaf (.str name))) : r.underKey n v = v := by
  rw [underKey, key]
  cases r.link n <;> rfl

/-- The objects fit, and what is known is evident. -/
structure Sound (r : Readout) : Prop where
  objects : Yaml.Sound r.objects
  known : ∀ n v, r.known.getD n none = some v → v.Evident

theorem read_evident {r : Readout} (h : r.Sound) (fuel : Nat) (around : List Nat) (n : Nat) :
    (r.read fuel around n).Evident := by
  induction fuel generalizing around n with
  | zero => exact ⟨rfl, fun l t shape => by cases shape⟩
  | succ fuel ih =>
    rw [read]
    cases known : r.known.getD n none with
    | some v => exact h.known n v known
    | none =>
      cases found : r.objects.getD n none with
      | none => exact ⟨rfl, fun l t shape => by cases shape⟩
      | some o =>
        have fits := h.objects n o found
        cases o with
        | leaf v =>
          have single := fits.single v rfl
          cases v with
          | dict es => cases single
          | _ => exact ⟨rfl, fun l t shape => by cases shape⟩
        | set members => exact ⟨trivial, fun l t shape => by cases shape⟩
        | list items =>
          dsimp only
          split <;> exact ⟨trivial, fun l t shape => by cases shape⟩
        | pairs items =>
          dsimp only
          split <;> exact ⟨trivial, fun l t shape => by cases shape⟩
        | dict es =>
          dsimp only
          split
          · exact ⟨trivial, fun l t shape => by cases shape⟩
          · refine ⟨trivial, fun l t shape => ?_⟩
            cases shape
            refine List.forall_mem_map.mpr fun e he name key => ?_
            have node := fits.keyed es rfl e he
            rw [underKey_text _ (node.trans (by rw [key]))]
            exact (ih (n :: around) e.2.2).plain

theorem know_sound (n : Nat) {r : Readout} (h : r.Sound) : (know n r).Sound := by
  induction n generalizing r with
  | zero => exact h
  | succ n ih =>
    rw [know]
    apply ih
    split
    · refine ⟨h.objects, fun m v found => ?_⟩
      rw [getD_setIfInBounds] at found
      by_cases here : n = m ∧ n < r.known.size
      · rw [if_pos here] at found
        cases found
        exact read_evident h 2 [] n
      · rw [if_neg here] at found
        exact h.known m v found
    · exact h

theorem knowAll_sound (rounds : Nat) {r : Readout} (h : r.Sound) : (knowAll rounds r).Sound := by
  induction rounds generalizing r with
  | zero => exact h
  | succ rounds ih =>
    rw [knowAll]
    split
    · exact know_sound _ h
    · exact ih (know_sound _ h)

end Readout

/-- What a text is read as is evident. -/
theorem read_evident {s : String} {v : Linked} (h : read s = .ok v) : v.Evident := by
  obtain ⟨⟨g, root⟩, -, rest⟩ := (bind_eq_ok_iff _ _ _).mp h
  cases root with
  | none =>
    cases rest
    exact ⟨rfl, fun l t shape => by cases shape⟩
  | some root =>
    obtain ⟨os, built, last⟩ := (bind_eq_ok_iff _ _ _).mp rest
    cases last
    refine Readout.read_evident (Readout.knowAll_sound _ ⟨Construction.run_sound built, ?_⟩) _ _ _
    intro n v found
    cases (getD_replicate _ n).symm.trans found

end Yaml

end Chronoplan
