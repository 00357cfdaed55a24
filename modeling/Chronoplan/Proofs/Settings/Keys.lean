import Chronoplan.Value.Basic
import Chronoplan.Proofs.Tables

/-!
# Keys of mappings

Any value without a changeable part can be a key, and keys are compared as values: numbers by where
they lie, moments by when they are. What a key stands for is what this leaves of it, and two keys
are the same when they stand for the same. A NaN is only found again when it carries a mark.
-/

set_option autoImplicit false

namespace Chronoplan

/-- What a key stands for. -/
inductive Meaning
  | nothing
  | place (p : Place)
  | nan (mark : Nat)
  | text (s : String)
  | bytes (octets : List Nat)
  | tuple (parts : List Meaning)
  | span (micros : Int)
  | date (d : Date)
  | moment (zoned : Bool) (micros : Int)

namespace Number

/-- A NaN has to be marked to be found again. -/
def isFindable : Number → Bool
  | .float (.nan mark) => mark != 0
  | _ => true

def meaning : Number → Meaning
  | .float (.nan mark) => .nan mark
  | n => (n.place?.map Meaning.place).getD .nothing

theorem meaning_cases (n : Number) : (∃ p, n.meaning = .place p) ∨ ∃ mark, n.meaning = .nan mark := by
  cases n with
  | float x => cases x <;> simp [meaning, place?]
  | _ => simp [meaning, place?]

end Number

namespace Value

mutual

/-- Keys that a mapping finds again. -/
def isFindable : Value → Bool
  | .num n => n.isFindable
  | .tuple xs => areFindable xs
  | .list _ => false
  | .set _ => false
  | .dict _ => false
  | .cycle _ => false
  | _ => true

def areFindable : List Value → Bool
  | [] => true
  | x :: xs => isFindable x && areFindable xs

end

theorem areFindable_iff (xs : List Value) :
    areFindable xs = true ↔ ∀ x ∈ xs, x.isFindable = true := by
  induction xs with
  | nil => simp [areFindable]
  | cons x xs ih => rw [areFindable, Bool.and_eq_true, ih, List.forall_mem_cons]

mutual

def meaning : Value → Meaning
  | .num n => n.meaning
  | .str s => .text s
  | .bytes octets => .bytes octets
  | .tuple xs => .tuple (meanings xs)
  | .span m => .span m
  | .date d => .date d
  | .moment t => .moment t.offset.isSome t.micros
  | _ => .nothing

def meanings : List Value → List Meaning
  | [] => []
  | x :: xs => meaning x :: meanings xs

end

@[simp] theorem meaning_num (n : Number) : meaning (.num n) = n.meaning := by rw [meaning]

theorem meanings_eq_map (xs : List Value) : meanings xs = xs.map meaning := by
  induction xs with
  | nil => rfl
  | cons x xs ih => rw [meanings, ih, List.map_cons]

theorem eqAll_iff_meanings (xs ys : List Value) (read : ∀ x ∈ xs, ∀ y ∈ ys,
    (x.alike y = true ↔ x.meaning = y.meaning)) :
    eqAll xs ys = true ↔ xs.map meaning = ys.map meaning := by
  induction xs generalizing ys with
  | nil => cases ys <;> simp [eqAll]
  | cons x xs ih =>
    cases ys with
    | nil => simp [eqAll]
    | cons y ys =>
      have first := read x List.mem_cons_self y List.mem_cons_self
      have rest := ih ys fun x hx y hy =>
        read x (List.mem_cons_of_mem _ hx) y (List.mem_cons_of_mem _ hy)
      rw [alike] at first
      rw [eqAll, Bool.and_eq_true, first, rest, List.map_cons, List.map_cons, List.cons.injEq]

/-- Numbers are the same key when they lie in the same place, or when they are one NaN. -/
theorem alike_num_iff (m n : Number) (hm : m.isFindable = true) (hn : n.isFindable = true) :
    alike (.num m) (.num n) = true ↔ m.meaning = n.meaning := by
  cases m with
  | float x =>
    cases n with
    | float y =>
      cases x <;> cases y <;> simp_all [alike, sameNaN, Number.meaning, Number.eq, Number.place?,
        Binary64.sameNaN, Number.isFindable]
    | _ => cases x <;> simp_all [alike, sameNaN, Number.meaning, Number.eq, Number.place?]
  | _ =>
    cases n with
    | float y => cases y <;> simp_all [alike, sameNaN, Number.meaning, Number.eq, Number.place?]
    | _ => simp_all [alike, sameNaN, Number.meaning, Number.eq, Number.place?]

/-- A number does not stand for what another value stands for. -/
theorem meaning_ne_of_num (n : Number) {b : Value} (hb : b.isFindable = true)
    (other : ∀ m, b ≠ .num m) : n.meaning ≠ b.meaning := by
  intro same
  obtain ⟨p, here⟩ | ⟨mark, here⟩ := n.meaning_cases <;> rw [here] at same <;>
    cases b <;> simp_all [meaning, isFindable]

/-- Keys are the same when they stand for the same. -/
theorem alike_iff_meaning (a b : Value) (ha : a.isFindable = true) (hb : b.isFindable = true) :
    a.alike b = true ↔ a.meaning = b.meaning := by
  cases shape : a with
  | tuple xs =>
    rw [shape] at ha
    cases b with
    | tuple ys =>
      have read := eqAll_iff_meanings xs ys fun x hx y hy =>
        alike_iff_meaning x y ((areFindable_iff xs).mp ha x hx) ((areFindable_iff ys).mp hb y hy)
      simpa [alike, eq, sameNaN, meaning, meanings_eq_map] using read
    | num n =>
      have differ := meaning_ne_of_num n ha (by simp)
      simpa [alike, eq, sameNaN] using differ.symm
    | _ => simp [alike, eq, sameNaN, meaning]
  | num m =>
    rw [shape] at ha
    cases b with
    | num n => exact alike_num_iff m n ha hb
    | _ =>
      have differ := meaning_ne_of_num m hb (by simp)
      simpa [alike, eq, sameNaN] using differ
  | moment t =>
    cases b with
    | num n =>
      have differ := meaning_ne_of_num n (b := .moment t) rfl (by simp)
      simpa [alike, eq, sameNaN] using differ.symm
    | _ => simp [alike, eq, sameNaN, meaning, Moment.same]
  | _ =>
    cases b with
    | num n =>
      have differ := meaning_ne_of_num n (shape ▸ ha) (by simp)
      simpa [alike, eq, sameNaN] using differ.symm
    | _ => simp_all [alike, eq, sameNaN, meaning, isFindable]
termination_by sizeOf a
decreasing_by
  have := List.sizeOf_lt_of_mem hx
  simp [shape]
  omega

theorem alike_self {a : Value} (ha : a.isFindable = true) : a.alike a = true :=
  (alike_iff_meaning a a ha ha).mpr rfl

/-- A key is the same as either or as none of two keys that are the same. -/
theorem alike_congr {a b c : Value} (ha : a.isFindable = true) (hb : b.isFindable = true)
    (hc : c.isFindable = true) (same : a.alike b = true) : c.alike a = c.alike b := by
  rw [Bool.eq_iff_iff, alike_iff_meaning c a hc ha, alike_iff_meaning c b hc hb,
    (alike_iff_meaning a b ha hb).mp same]

end Value

section

variable {ν : Type} {t : Table Value ν}

/-- Under keys that are the same one value is found. -/
theorem find?_congr (findable : ∀ e ∈ t, e.1.isFindable = true) {a b : Value}
    (ha : a.isFindable = true) (hb : b.isFindable = true) (same : a.alike b = true) :
    t.find? Value.alike a = t.find? Value.alike b := by
  induction t with
  | nil => rfl
  | cons e t ih =>
    obtain ⟨here, later⟩ := List.forall_mem_cons.mp findable
    rw [Table.find?, Table.find?, Value.alike_congr ha hb here same, ih later]

/-- The keys are found again, and each of them is given once. -/
structure Indexed (t : Table Value ν) : Prop where
  findable : ∀ e ∈ t, e.1.isFindable = true
  once : t.Pairwise fun e e' => e.1.alike e'.1 = false

theorem Indexed.find?_of_mem (h : Indexed t) {e : Value × ν} (he : e ∈ t) :
    t.find? Value.alike e.1 = some e.2 := by
  obtain ⟨findable, once⟩ := h
  induction t with
  | nil => cases he
  | cons e' t ih =>
    obtain ⟨-, later⟩ := List.forall_mem_cons.mp findable
    obtain ⟨apart, rest⟩ := List.pairwise_cons.mp once
    rw [Table.find?]
    rcases List.mem_cons.mp he with rfl | he
    · rw [if_pos (Value.alike_self (findable _ List.mem_cons_self))]
    · rw [apart e he]
      exact ih he later rest

end

end Chronoplan
