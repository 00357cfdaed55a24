import Chronoplan.Proofs.Faults
import Chronoplan.Proofs.Tables
import Chronoplan.Proofs.Settings.Trees
import Chronoplan.Yaml.Document

/-!
# Objects of documents

While the objects of a document are built, a scalar that has its object keeps it, and a collection
that waits to be filled has one already. So the key of an entry stays what its node stands for.
-/

set_option autoImplicit false

namespace Chronoplan

namespace Yaml

abbrev Objects := Array (Option Object)

/-- The key of each entry is what its node stands for. -/
def Keyed (os : Objects) (es : Table Value (Nat × Nat)) : Prop :=
  ∀ e ∈ es, os.getD e.2.1 none = some (.leaf e.1)

/-- Scalars are no mappings, and mappings have the keys of their nodes. -/
structure Object.Fits (os : Objects) (o : Object) : Prop where
  single : ∀ v, o = .leaf v → v.isMapping = false
  keyed : ∀ es, o = .dict es → Keyed os es

/-- The node of a collection that has begun. -/
def Begun (os : Objects) (n : Nat) : Prop :=
  n < os.size → ∃ o, os.getD n none = some o ∧ ∀ v, o ≠ .leaf v

/-- Scalars stay what they are and collections stay collections. -/
structure Later (os os' : Objects) : Prop where
  leaf : ∀ n v, os.getD n none = some (.leaf v) → os'.getD n none = some (.leaf v)
  begun : ∀ n, Begun os n → Begun os' n

theorem Later.refl (os : Objects) : Later os os := ⟨fun _ _ h => h, fun _ h => h⟩

theorem Later.trans {os os' os'' : Objects} (h : Later os os') (h' : Later os' os'') :
    Later os os'' :=
  ⟨fun n v l => h'.leaf n v (h.leaf n v l), fun n b => h'.begun n (h.begun n b)⟩

theorem Keyed.later {os os' : Objects} (h : Later os os') {es : Table Value (Nat × Nat)}
    (keyed : Keyed os es) : Keyed os' es :=
  fun e he => h.leaf _ _ (keyed e he)

theorem Object.Fits.later {os os' : Objects} (h : Later os os') {o : Object} (fits : o.Fits os) :
    o.Fits os' :=
  ⟨fits.single, fun es shape => (fits.keyed es shape).later h⟩

/-- All objects fit. -/
def Sound (os : Objects) : Prop := ∀ n o, os.getD n none = some o → o.Fits os

/-! ### Giving a node its object -/

theorem getD_replicate {α : Type} (size n : Nat) :
    (Array.replicate size (none : Option α)).getD n none = none := by
  rw [Array.getD_eq_getD_getElem?, Array.getElem?_replicate]
  split <;> rfl

theorem getD_setIfInBounds {α : Type} (xs : Array (Option α)) (n m : Nat) (x : α) :
    (xs.setIfInBounds n (some x)).getD m none =
      if n = m ∧ n < xs.size then some x else xs.getD m none := by
  rw [Array.getD_eq_getD_getElem?, Array.getD_eq_getD_getElem?, Array.getElem?_setIfInBounds]
  by_cases same : n = m
  · by_cases inside : n < xs.size
    · simp [same, same ▸ inside]
    · simp [same, same ▸ inside]
  · simp [same]

section

variable {os : Objects} {n : Nat} {o : Object}
  (room : os.getD n none = none ∨ Begun os n ∧ ∀ v, o ≠ .leaf v)
include room

theorem later_set : Later os (os.setIfInBounds n (some o)) := by
  constructor
  · intro m v found
    rw [getD_setIfInBounds]
    by_cases here : n = m ∧ n < os.size
    · obtain ⟨rfl, inside⟩ := here
      rcases room with fresh | ⟨begun, -⟩
      · cases fresh.symm.trans found
      · obtain ⟨o', there, group⟩ := begun inside
        exact absurd (Option.some.inj (there.symm.trans found)) (group v)
    · rwa [if_neg here]
  · intro m begun inside
    rw [Array.size_setIfInBounds] at inside
    obtain ⟨o', there, group⟩ := begun inside
    rw [getD_setIfInBounds]
    by_cases here : n = m ∧ n < os.size
    · obtain ⟨rfl, -⟩ := here
      rcases room with fresh | ⟨-, group'⟩
      · cases fresh.symm.trans there
      · exact ⟨o, if_pos ⟨rfl, inside⟩, group'⟩
    · exact ⟨o', (if_neg here).trans there, group⟩

theorem sound_set (sound : Sound os) (fits : o.Fits os) : Sound (os.setIfInBounds n (some o)) := by
  intro m o' found
  rw [getD_setIfInBounds] at found
  by_cases here : n = m ∧ n < os.size
  · rw [if_pos here] at found
    cases found
    exact fits.later (later_set room)
  · rw [if_neg here] at found
    exact (sound m o' found).later (later_set room)

end

/-! ### Values of scalars -/

theorem isMapping_of_map {α : Type} {make : α → Value} (single : ∀ a, (make a).isMapping = false)
    {x : Except Fault α} {v : Value} (h : make <$> x = .ok v) : v.isMapping = false := by
  cases x with
  | error f => cases h
  | ok a =>
    cases h
    exact single a

theorem isMapping_timestamp {t : Timestamp} {v : Value} (h : t.toValue? = some v) :
    v.isMapping = false := by
  unfold Timestamp.toValue? at h
  split at h
  · obtain ⟨-, h⟩ := Option.ite_none_right_eq_some.mp h
    cases h
    rfl
  · obtain ⟨-, h⟩ := Option.ite_none_right_eq_some.mp h
    cases h
    rfl

theorem isMapping_scalarValue {type : ScalarType} {s : String} {v : Value}
    (h : scalarValue type s = .ok v) : v.isMapping = false := by
  cases type with
  | bool => exact isMapping_of_map (fun _ => rfl) h
  | float => exact isMapping_of_map (fun _ => rfl) h
  | int => exact isMapping_of_map (fun _ => rfl) h
  | null => cases h; rfl
  | str => cases h; rfl
  | timestamp =>
    obtain ⟨t, -, rest⟩ := (bind_eq_ok_iff _ _ _).mp h
    exact isMapping_timestamp ((orFault_eq_ok_iff _ _ _).mp rest)
  | binary =>
    simp only [scalarValue, readBinary] at h
    split at h
    · obtain ⟨octets, -, rfl⟩ := Option.map_eq_some_iff.mp ((orFault_eq_ok_iff _ _ _).mp h)
      rfl
    · cases h
  | merge => cases h
  | value => cases h

/-! ### Steps of the construction -/

namespace Construction

/-- The objects fit, and the collections that wait have begun. -/
structure Ready (c : Construction) : Prop where
  sound : Sound c.objects
  waiting : ∀ n ∈ c.waiting, Begun c.objects n

/-- From here the step leads to a construction that is ready and goes on from this one. -/
def Ensures {α : Type} (x : Build α) (c : Construction) (post : α → Construction → Prop) : Prop :=
  ∀ a c', x.run c = .ok (a, c') → c'.Ready ∧ Later c.objects c'.objects ∧ post a c'

section

variable {α β : Type} {c : Construction}

theorem Ensures.bind {x : Build α} {next : α → Build β} {mid : α → Construction → Prop}
    {post : β → Construction → Prop} (hx : Ensures x c mid)
    (hnext : ∀ a c', c'.Ready → Later c.objects c'.objects → mid a c' → Ensures (next a) c' post) :
    Ensures (x >>= next) c post := by
  intro b c'' run
  obtain ⟨⟨a, c'⟩, first, rest⟩ := (bind_eq_ok_iff _ _ _).mp run
  obtain ⟨ready, later, here⟩ := hx a c' first
  obtain ⟨ready', later', there⟩ := hnext a c' ready later here b c'' rest
  exact ⟨ready', later.trans later', there⟩

theorem Ensures.pure {a : α} {post : α → Construction → Prop} (ready : c.Ready) (h : post a c) :
    Ensures (Pure.pure a) c post := by
  intro b c' run
  cases run
  exact ⟨ready, Later.refl _, h⟩

theorem Ensures.throw {f : Fault} {post : α → Construction → Prop} :
    Ensures (MonadExcept.throw f) c post := by
  intro a c' run
  cases run

theorem Ensures.mono {x : Build α} {post post' : α → Construction → Prop} (h : Ensures x c post)
    (weaker : ∀ a c', post a c' → post' a c') : Ensures x c post' := by
  intro a c' run
  obtain ⟨ready, later, here⟩ := h a c' run
  exact ⟨ready, later, weaker a c' here⟩

theorem Ensures.get_bind {next : Construction → Build β} {post : β → Construction → Prop}
    (h : Ensures (next c) c post) : Ensures (get >>= next) c post := h

theorem Ensures.lift_bind {x : Except Fault α} {next : α → Build β} {post : β → Construction → Prop}
    (h : ∀ a, x = .ok a → Ensures (next a) c post) : Ensures (liftM x >>= next) c post := by
  intro b c' run
  cases hx : x with
  | error f => rw [hx] at run; cases run
  | ok a =>
    rw [hx] at run
    exact h a hx b c' run

theorem Ensures.forM {step : Nat → Build Unit} {P : Objects → Nat → Prop}
    (stays : ∀ os os' n, Later os os' → P os n → P os' n) (ns : List Nat) (ready : c.Ready)
    (hstep : ∀ n ∈ ns, ∀ c' : Construction, c'.Ready → P c'.objects n →
      Ensures (step n) c' fun _ _ => True)
    (h : ∀ n ∈ ns, P c.objects n) : Ensures (ns.forM step) c fun _ _ => True := by
  induction ns generalizing c with
  | nil => exact Ensures.pure ready trivial
  | cons n ns ih =>
    obtain ⟨here, later⟩ := List.forall_mem_cons.mp h
    obtain ⟨first, rest⟩ := List.forall_mem_cons.mp hstep
    refine (first c ready here).bind fun _ c' ready' after _ => ?_
    exact ih ready' rest fun m hm => stays _ _ m after (later m hm)

end

theorem put_ensures {c : Construction} (ready : c.Ready) {n : Nat} {o : Object}
    (room : c.objects.getD n none = none ∨ Begun c.objects n ∧ ∀ v, o ≠ .leaf v)
    (fits : o.Fits c.objects) :
    Ensures (put n o) c fun _ c' => (∀ v, o ≠ .leaf v) → Begun c'.objects n := by
  intro a c' run
  cases run
  refine ⟨⟨sound_set room ready.sound fits, fun m hm => ?_⟩, later_set room, fun group inside => ?_⟩
  · exact (later_set room).begun m (ready.waiting m hm)
  · rw [Array.size_setIfInBounds] at inside
    exact ⟨o, (getD_setIfInBounds _ _ _ _).trans (if_pos ⟨rfl, inside⟩), group⟩

/-- A collection is begun with nothing in it. -/
theorem postpone_ensures {c : Construction} (ready : c.Ready) {n : Nat} {o : Object}
    (fresh : c.objects.getD n none = none) (group : ∀ v, o ≠ .leaf v)
    (empty : ∀ es, o = .dict es → es = []) : Ensures (postpone n o) c fun _ _ => True := by
  have fits : o.Fits c.objects := by
    refine ⟨fun v shape => absurd shape (group v), fun es shape => ?_⟩
    rw [empty es shape]
    exact fun e he => absurd he List.not_mem_nil
  refine (put_ensures ready (.inl fresh) fits).bind fun _ c' ready' _ begun => ?_
  intro a c'' run
  cases run
  exact ⟨⟨ready'.sound, List.forall_mem_cons.mpr ⟨begun group, ready'.waiting⟩⟩, Later.refl _,
    trivial⟩

theorem isMapping_scalarOf {g : Graph} {n : Nat} {type : ScalarType} {v : Value}
    (h : scalarOf g n type = .ok v) : v.isMapping = false := by
  obtain ⟨s, -, rest⟩ := (bind_eq_ok_iff _ _ _).mp h
  have read : scalarValue type s = .ok v := by
    split at rest
    · cases rest
    · exact rest
  exact isMapping_scalarValue read

theorem begin_ensures {c : Construction} (ready : c.Ready) (n : Nat) :
    Ensures (begin n) c fun _ _ => True := by
  unfold begin
  refine Ensures.get_bind ?_
  by_cases there : (c.objects.getD n none).isSome = true
  · simp only [there, if_true]
    exact Ensures.pure ready trivial
  · have fresh : c.objects.getD n none = none := by simpa using there
    simp only [there]
    cases c.graph.typeOf n with
    | scalar type =>
      refine Ensures.lift_bind fun v hv => ?_
      refine (put_ensures ready (.inl fresh) ⟨?_, fun es shape => by cases shape⟩).mono
        fun _ _ _ => trivial
      intro w shape
      cases shape
      exact isMapping_scalarOf hv
    | unknown => exact Ensures.throw
    | map => exact postpone_ensures ready fresh (by simp) (by simp)
    | _ => exact postpone_ensures ready fresh (by simp) (by simp)

theorem keyOf_ensures {c : Construction} (ready : c.Ready) (n : Nat) :
    Ensures (keyOf n) c fun v c' => c'.objects.getD n none = some (.leaf v) := by
  unfold keyOf
  refine (begin_ensures ready n).bind fun _ c' ready' _ _ => Ensures.get_bind ?_
  cases found : c'.objects.getD n none with
  | none => exact Ensures.throw
  | some o =>
    cases o with
    | leaf v =>
      by_cases key : v.isKey = true
      · simp only [key, if_true]
        exact Ensures.pure ready' found
      · simp only [key]
        exact Ensures.throw
    | _ => exact Ensures.throw

/-- An entry that is written again keeps the node of its key. -/
theorem keyed_insert {os : Objects} {t : Table Value (Nat × Nat)} (h : Keyed os t) {key : Value}
    {k : Nat} (found : os.getD k none = some (.leaf key)) (v : Nat) :
    Keyed os (t.insert Value.alike key
      (((t.find? Value.alike key).map Prod.fst).getD k, v)) := by
  induction t with
  | nil =>
    intro e he
    rw [List.mem_singleton.mp he]
    exact found
  | cons e t ih =>
    obtain ⟨here, later⟩ := List.forall_mem_cons.mp h
    rw [Table.insert, Table.find?]
    by_cases same : e.1.alike key = true
    · rw [if_pos same, if_pos same]
      exact List.forall_mem_cons.mpr ⟨here, later⟩
    · rw [if_neg same, if_neg same]
      exact List.forall_mem_cons.mpr ⟨here, ih later⟩

theorem fillEntries_ensures (es : List (Nat × Nat)) {c : Construction} (ready : c.Ready)
    {t : Table Value (Nat × Nat)} (h : Keyed c.objects t) :
    Ensures (fillEntries es t) c fun t' c' => Keyed c'.objects t' := by
  induction es generalizing c t with
  | nil => exact Ensures.pure ready h
  | cons e es ih =>
    obtain ⟨k, v⟩ := e
    unfold fillEntries
    refine (keyOf_ensures ready k).bind fun key c' ready' after found => ?_
    refine (begin_ensures ready' v).bind fun _ c'' ready'' after' _ => ?_
    exact ih ready'' (keyed_insert ((h.later after).later after') (after'.leaf _ _ found) v)

theorem mappingOf_ensures {c : Construction} (ready : c.Ready) (n : Nat) :
    Ensures (mappingOf n) c fun es c' => Keyed c'.objects es := by
  unfold mappingOf
  refine Ensures.get_bind (Ensures.lift_bind fun g _ => ?_)
  have replaced : Ensures (set { c with graph := g } : Build PUnit) c fun _ _ => True := by
    intro a c' run
    cases run
    exact ⟨⟨ready.sound, ready.waiting⟩, Later.refl _, trivial⟩
  refine replaced.bind fun _ c' ready' _ _ => ?_
  cases g.entriesOf? n with
  | none => exact Ensures.throw
  | some es => exact fillEntries_ensures es ready' fun e he => absurd he List.not_mem_nil

theorem fillPairs_ensures (ns : List Nat) {c : Construction} (ready : c.Ready) :
    Ensures (fillPairs ns) c fun _ _ => True := by
  induction ns generalizing c with
  | nil => exact Ensures.pure ready trivial
  | cons n ns ih =>
    unfold fillPairs
    refine Ensures.get_bind ?_
    split
    · next k v _ =>
      refine (begin_ensures ready k).bind fun _ c' ready' _ _ => ?_
      refine (begin_ensures ready' v).bind fun _ c'' ready'' _ _ => ?_
      exact (ih ready'').bind fun es last done _ _ => Ensures.pure done trivial
    · exact Ensures.throw

theorem itemsOf_ensures {c : Construction} (ready : c.Ready) (n : Nat) :
    Ensures (itemsOf n) c fun _ _ => True := by
  unfold itemsOf
  refine Ensures.get_bind ?_
  split
  · exact Ensures.pure ready trivial
  · exact Ensures.throw

theorem fill_ensures {c : Construction} (ready : c.Ready) {n : Nat} (begun : Begun c.objects n) :
    Ensures (fill n) c fun _ _ => True := by
  -- What is put in place of a collection is a collection, and if a mapping, one with its keys.
  have filled : ∀ {c' : Construction} {o : Object}, c'.Ready → Later c.objects c'.objects →
      (∀ v, o ≠ .leaf v) → (∀ es, o = .dict es → Keyed c'.objects es) →
      Ensures (put n o) c' fun _ _ => True := by
    intro c' o ready' after group keyed
    refine (put_ensures ready' (.inr ⟨after.begun n begun, group⟩) ⟨?_, keyed⟩).mono
      fun _ _ _ => trivial
    exact fun v shape => absurd shape (group v)
  unfold fill
  refine Ensures.get_bind ?_
  cases c.graph.typeOf n with
  | seq =>
    refine (itemsOf_ensures ready n).bind fun ns c' ready' after _ => ?_
    refine (Ensures.forM (P := fun _ _ => True) (fun _ _ _ _ h => h) ns ready'
      (fun m _ c'' ready'' _ => begin_ensures ready'' m) fun _ _ => trivial).bind
      fun _ c'' ready'' after' _ => ?_
    exact filled ready'' (after.trans after') (by simp) (by simp)
  | map =>
    refine (mappingOf_ensures ready n).bind fun es c' ready' after keyed => ?_
    refine filled ready' after (by simp) fun es' shape => ?_
    cases shape
    exact keyed
  | set =>
    refine (mappingOf_ensures ready n).bind fun es c' ready' after _ => ?_
    exact filled ready' after (by simp) (by simp)
  | pairs =>
    refine (itemsOf_ensures ready n).bind fun ns c' ready' after _ => ?_
    refine (fillPairs_ensures ns ready').bind fun es c'' ready'' after' _ => ?_
    exact filled ready'' (after.trans after') (by simp) (by simp)
  | _ => exact Ensures.pure ready trivial

theorem fillAll_ensures (fuel : Nat) {c : Construction} (ready : c.Ready) :
    Ensures (fillAll fuel) c fun _ _ => True := by
  induction fuel generalizing c with
  | zero => exact Ensures.pure ready trivial
  | succ fuel ih =>
    unfold fillAll
    refine Ensures.get_bind ?_
    by_cases done : c.waiting.reverse.isEmpty = true
    · simp only [done, if_true]
      exact Ensures.pure ready trivial
    · simp only [done]
      have taken : Ensures (modify fun c => { c with waiting := [] } : Build PUnit) c
          fun _ c' => c'.objects = c.objects := by
        intro a c' run
        cases run
        exact ⟨⟨ready.sound, fun m hm => absurd hm List.not_mem_nil⟩, Later.refl _, rfl⟩
      refine taken.bind fun _ c' ready' _ same => ?_
      refine (Ensures.forM (P := Begun) (fun _ _ n after => after.begun n) _ ready'
        (fun n _ c'' ready'' begun => fill_ensures ready'' begun) fun n hn => ?_).bind
        fun _ c'' ready'' _ _ => ih ready''
      rw [same]
      exact ready.waiting n (List.mem_reverse.mp hn)

/-- The objects of a document fit. -/
theorem run_sound {g : Graph} {root : Nat} {os : Objects} (h : run g root = .ok os) : Sound os := by
  have ready : Ready { graph := g, objects := Array.replicate g.size none, waiting := [] } := by
    refine ⟨fun n o found => ?_, fun n hn => absurd hn List.not_mem_nil⟩
    cases (getD_replicate g.size n).symm.trans found
  obtain ⟨⟨a, c⟩, built, last⟩ := (bind_eq_ok_iff _ _ _).mp h
  cases last
  have steps := (begin_ensures ready root).bind fun _ c' ready' _ _ =>
    fillAll_ensures (g.size + 1) ready'
  exact (steps a c built).1.sound

end Construction

end Yaml

end Chronoplan
