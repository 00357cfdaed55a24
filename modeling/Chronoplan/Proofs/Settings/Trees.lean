import Chronoplan.Proofs.Settings.Keys

/-!
# Trees of mappings

Mappings in mappings, down to values that are none. What stands at the end of a path of keys is
found by going from mapping to mapping, and a way is clear when it leads through nothing else.
-/

set_option autoImplicit false

namespace Chronoplan

namespace Value

def isMapping : Value → Bool
  | .dict _ => true
  | _ => false

/-- What holds of all leaves, and of a mapping when it holds of its values, holds of all values. -/
@[elab_as_elim]
theorem mappingInduction {P : Value → Prop} (leaf : ∀ v, v.isMapping = false → P v)
    (dict : ∀ t : Table Value Value, (∀ e ∈ t, P e.2) → P (.dict t)) (v : Value) : P v := by
  cases v with
  | dict t => exact dict t fun e he => mappingInduction leaf dict e.2
  | _ => exact leaf _ rfl
termination_by sizeOf v
decreasing_by
  have entry := List.sizeOf_lt_of_mem he
  have parts : sizeOf e = 1 + sizeOf e.1 + sizeOf e.2 := Prod.mk.sizeOf_spec e.1 e.2
  rw [Value.dict.sizeOf_spec]
  omega

mutual

/-- Mappings in mappings, in each of which the keys are found again and given once; all other
values are leaves. -/
def isTree : Value → Bool
  | .dict kvs => holdTrees kvs && decide (kvs.Pairwise fun e e' => e.1.alike e'.1 = false)
  | .cycle _ => false
  | _ => true

def holdTrees : List (Value × Value) → Bool
  | [] => true
  | (k, v) :: r => k.isFindable && isTree v && holdTrees r

end

theorem holdTrees_iff (t : Table Value Value) : holdTrees t = true ↔
    ∀ e ∈ t, e.1.isFindable = true ∧ e.2.isTree = true := by
  induction t with
  | nil => simp [holdTrees]
  | cons e t ih => rw [holdTrees, Bool.and_eq_true, Bool.and_eq_true, ih, List.forall_mem_cons]

theorem isTree_dict_iff (t : Table Value Value) :
    (Value.dict t).isTree = true ↔ Indexed t ∧ ∀ e ∈ t, e.2.isTree = true := by
  rw [isTree, Bool.and_eq_true, holdTrees_iff, decide_eq_true_iff]
  constructor
  · rintro ⟨entries, once⟩
    exact ⟨⟨fun e he => (entries e he).1, once⟩, fun e he => (entries e he).2⟩
  · rintro ⟨⟨findable, once⟩, below⟩
    exact ⟨fun e he => ⟨findable e he, below e he⟩, once⟩

/-- What a mapping holds under a key. -/
def under? : Value → Value → Option Value
  | .dict t, k => lookup k t
  | _, _ => none

/-- What stands at the end of a path of keys. -/
def reach? (v : Value) : List Value → Option Value
  | [] => some v
  | k :: path => (v.under? k).bind fun w => w.reach? path

theorem isTree_under {v w : Value} (h : v.isTree = true) {k : Value} (found : v.under? k = some w) :
    w.isTree = true := by
  cases v with
  | dict t =>
    obtain ⟨e, he, -, rfl⟩ := exists_of_find? found
    exact ((isTree_dict_iff t).mp h).2 e he
  | _ => cases found

/-- No value other than a mapping stands before the end of a path. -/
def Clear (v : Value) (path : List Value) : Prop :=
  ∀ way w, way <+: path → way ≠ path → v.reach? way = some w → w.isMapping = true

theorem clear_nil (v : Value) : v.Clear [] := by
  intro way _ before short _
  exact absurd (List.prefix_nil.mp before) short

theorem clear_cons (v k : Value) (path : List Value) :
    v.Clear (k :: path) ↔ v.isMapping = true ∧ ∀ w, v.under? k = some w → w.Clear path := by
  constructor
  · intro clear
    refine ⟨clear [] v (List.nil_prefix) (by simp) rfl, fun w found way x before short reached => ?_⟩
    refine clear (k :: way) x (List.cons_prefix_cons.mpr ⟨rfl, before⟩) (by simpa using short) ?_
    rw [reach?, found]
    exact reached
  · rintro ⟨mapping, clear⟩ way x before short reached
    cases way with
    | nil =>
      cases reached
      exact mapping
    | cons k' way =>
      obtain ⟨rfl, earlier⟩ := List.cons_prefix_cons.mp before
      obtain ⟨w, found, reached⟩ := Option.bind_eq_some_iff.mp reached
      exact clear w found way x earlier (fun same => short (same ▸ rfl)) reached

end Value

end Chronoplan
