import Chronoplan.CommandLine.Schedule
import Chronoplan.Proofs.Documents
import Chronoplan.Proofs.Network.Requests

/-!
# Reading a network file

A file is read as a network or blamed for what is wrong with it. Three faults are not expected,
and nobody is blamed for them: an interval that is no mapping has no parts to ask for, an empty
duration has no first bound, and an integer may be too large for a binary64. They are met exactly
where such an entry is reached, the entries before it having been read.
-/

set_option autoImplicit false

namespace Chronoplan

/-! ### Faults that nobody is blamed for -/

namespace CommandLine

variable {α β : Type}

/-- A computation stops in a fault that no network file is blamed for. -/
def Escapes (x : Except Fault α) (f : Fault) : Prop := x = .error f ∧ blamesNetwork f = false

theorem not_escapes_ok (a : α) (f : Fault) : ¬Escapes (.ok a : Except Fault α) f := by
  rintro ⟨⟨⟩, -⟩

theorem not_escapes_blamed {e : Fault} (h : blamesNetwork e = true) (f : Fault) :
    ¬Escapes (.error e : Except Fault α) f := by
  rintro ⟨⟨⟩, other⟩
  rw [h] at other
  cases other

theorem escapes_error_iff {e : Fault} (h : blamesNetwork e = false) (f : Fault) :
    Escapes (.error e : Except Fault α) f ↔ f = e := by
  constructor
  · rintro ⟨⟨⟩, -⟩
    rfl
  · rintro rfl
    exact ⟨rfl, h⟩

theorem escapes_bind_iff (x : Except Fault α) (g : α → Except Fault β) (f : Fault) :
    Escapes (x >>= g) f ↔ Escapes x f ∨ ∃ a, x = .ok a ∧ Escapes (g a) f := by
  cases x <;> simp [Escapes]

theorem escapes_bind_iff_right {x : Except Fault α} (never : ∀ f, ¬Escapes x f)
    (g : α → Except Fault β) (f : Fault) :
    Escapes (x >>= g) f ↔ ∃ a, x = .ok a ∧ Escapes (g a) f := by
  rw [escapes_bind_iff, or_iff_right (never f)]

theorem escapes_bind_iff_left (x : Except Fault α) {g : α → Except Fault β}
    (never : ∀ a, x = .ok a → ∀ f, ¬Escapes (g a) f) (f : Fault) :
    Escapes (x >>= g) f ↔ Escapes x f := by
  rw [escapes_bind_iff, or_iff_left]
  rintro ⟨a, ha, h⟩
  exact never a ha f h

theorem escapes_orFault_iff {e : Fault} (h : blamesNetwork e = false) (x : Option α) (f : Fault) :
    Escapes (orFault e x) f ↔ f = e ∧ x = none := by
  cases x with
  | some a => exact iff_of_false (not_escapes_ok a f) (by simp)
  | none => exact (escapes_error_iff h f).trans (by simp)

theorem not_escapes_orFault {e : Fault} (h : blamesNetwork e = true) (x : Option α) (f : Fault) :
    ¬Escapes (orFault e x) f := by
  cases x with
  | some a => exact not_escapes_ok a f
  | none => exact not_escapes_blamed h f

/-- A loop stops in the step of one element, when the steps before it are made. -/
theorem escapes_foldlM_iff (step : β → α → Except Fault β) (as : List α) (b : β) (f : Fault) :
    Escapes (as.foldlM step b) f ↔ ∃ before a after b', as = before ++ a :: after ∧
      before.foldlM step b = .ok b' ∧ Escapes (step b' a) f := by
  induction as generalizing b with
  | nil =>
    refine iff_of_false (not_escapes_ok b f) ?_
    rintro ⟨before, a, after, -, split, -⟩
    cases before <;> cases split
  | cons a as ih =>
    rw [List.foldlM_cons, escapes_bind_iff]
    constructor
    · rintro (here | ⟨b', made, later⟩)
      · exact ⟨[], a, as, b, rfl, rfl, here⟩
      · obtain ⟨before, a', after, b'', rfl, made', there⟩ := (ih b').mp later
        exact ⟨a :: before, a', after, b'', rfl, by rw [List.foldlM_cons, made, ok_bind, made'],
          there⟩
    · rintro ⟨before, a', after, b'', split, made, there⟩
      cases before with
      | nil =>
        cases split
        cases made
        exact .inl there
      | cons first before =>
        cases split
        rw [List.foldlM_cons] at made
        obtain ⟨b', made, made'⟩ := (bind_eq_ok_iff _ _ _).mp made
        exact .inr ⟨b', made, (ih b').mpr ⟨before, a', after, b'', rfl, made', there⟩⟩

end CommandLine

open CommandLine

/-! ### Numbers that are too large -/

namespace Value

/-- An integer that no binary64 is near to. -/
def Oversized (v : Value) : Prop := ∃ k, v = .int k ∧ ¬Addable k

/-- An integer or a binary64 number. -/
def IsMeasure (v : Value) : Prop := (∃ k, v = .int k) ∨ ∃ x, v = .num (.float x)

/-- Two values that would form a bound, were not one of them too large to be looked at. -/
structure Exceed (lo hi : Value) : Prop where
  lower : lo.IsMeasure
  upper : hi.IsMeasure
  number : ∀ x, lo = .num x → x.isNaN = false
  large : lo.Oversized ∨ hi.Oversized

/-- A binary64 number and an integer that is too large to be taken from it or the other way. -/
def Incomparable (a b : Value) : Prop :=
  (a.Oversized ∧ ∃ x, b = .num (.float x)) ∨ (∃ x, a = .num (.float x)) ∧ b.Oversized

/-- A value that leaves a point alone or fixes it. -/
def Anchors (v : Value) : Prop := v = .null ∨ ∃ b, Bound.ofValues v v = .ok b

theorem Incomparable.numbers {a b : Value} (h : a.Incomparable b) :
    (∃ x, a = .num x) ∧ ∃ y, b = .num y := by
  obtain ⟨⟨k, rfl, -⟩, x, rfl⟩ | ⟨⟨x, rfl⟩, k, rfl, -⟩ := h
  · exact ⟨⟨_, rfl⟩, _, rfl⟩
  · exact ⟨⟨_, rfl⟩, _, rfl⟩

theorem oversized_int_iff (k : ℤ) :
    (Value.int k).Oversized ↔ (Number.int k).toBinary64? = none := by
  rw [← Option.not_isSome_iff_eq_none]
  constructor
  · rintro ⟨_, ⟨⟩, large⟩
    exact large
  · exact fun large => ⟨k, rfl, large⟩

theorem not_oversized_float (x : Binary64) : ¬(Value.num (.float x)).Oversized := by
  rintro ⟨k, ⟨⟩, -⟩

theorem Oversized.isMeasure {v : Value} (h : v.Oversized) : v.IsMeasure := by
  obtain ⟨k, rfl, -⟩ := h
  exact .inl ⟨k, rfl⟩

theorem IsMeasure.exists_number {v : Value} (h : v.IsMeasure) : ∃ x, v = .num x := by
  obtain ⟨k, rfl⟩ | ⟨x, rfl⟩ := h
  · exact ⟨_, rfl⟩
  · exact ⟨_, rfl⟩

/-- Where a value stands for both bounds only its size matters. -/
theorem exceed_self_iff (v : Value) : v.Exceed v ↔ v.Oversized := by
  constructor
  · exact fun h => or_self_iff.mp h.large
  · intro h
    refine ⟨h.isMeasure, h.isMeasure, ?_, .inl h⟩
    obtain ⟨k, rfl, -⟩ := h
    rintro x ⟨⟩
    rfl

end Value

theorem toBinary64_escapes_iff {x : Number} (h : (Value.num x).IsMeasure) (f : Fault) :
    Escapes x.toBinary64 f ↔ f = .tooLarge ∧ (Value.num x).Oversized := by
  rw [Number.toBinary64, escapes_orFault_iff rfl]
  obtain ⟨k, ⟨⟩⟩ | ⟨y, ⟨⟩⟩ := h
  · rw [← Value.oversized_int_iff]
  · exact and_congr_right fun _ => iff_of_false (by rintro ⟨⟩) (Value.not_oversized_float y)

theorem isNaN_toBinary64 {x : Number} (h : (Value.num x).IsMeasure) {y : Binary64}
    (hy : x.toBinary64 = .ok y) : y.isNaN = x.isNaN := by
  have hy := (orFault_eq_ok_iff _ _ _).mp hy
  obtain ⟨k, ⟨⟩⟩ | ⟨z, ⟨⟩⟩ := h
  · unfold Number.toBinary64? Number.toBinary64?.nearest at hy
    obtain h | h | h | ⟨q, h⟩ := Binary64.ofRat_cases k <;> simp only [h] at hy <;> cases hy <;> rfl
  · cases hy
    rfl

theorem exists_toBinary64 {x : Number} (h : (Value.num x).IsMeasure)
    (small : ¬(Value.num x).Oversized) : ∃ y, x.toBinary64 = .ok y := by
  obtain ⟨k, ⟨⟩⟩ | ⟨y, ⟨⟩⟩ := h
  · rw [Value.oversized_int_iff] at small
    obtain ⟨y, hy⟩ := Option.ne_none_iff_exists'.mp small
    exact ⟨y, (orFault_eq_ok_iff _ _ _).mpr hy⟩
  · exact ⟨y, rfl⟩

theorem ofValues?_of_measures {a b : Number} (ha : (Value.num a).IsMeasure)
    (hb : (Value.num b).IsMeasure) :
    Bound.ofValues? (.num a) (.num b) = a.toBinary64 >>= fun x =>
      if x.isNaN then .ok none
      else b.toBinary64 >>= fun y =>
        if y.isNaN then .ok none
        else if x = .posInf ∨ y = .negInf then .ok none
        else .ok (if a.le b then some ⟨a, b⟩ else none) := by
  obtain ⟨k, ⟨⟩⟩ | ⟨x, ⟨⟩⟩ := ha <;> obtain ⟨l, ⟨⟩⟩ | ⟨y, ⟨⟩⟩ := hb <;> rfl

/-- Once the lower bound is a number, the upper one is looked at. -/
theorem upper_escapes_iff (a : Number) {b : Number} (hb : (Value.num b).IsMeasure) (x : Binary64)
    (f : Fault) : Escapes (b.toBinary64 >>= fun y =>
      if y.isNaN then .ok none
      else if x = .posInf ∨ y = .negInf then .ok none
      else .ok (if a.le b then some (⟨a, b⟩ : Bound) else none)) f ↔
      f = .tooLarge ∧ (Value.num b).Oversized := by
  rw [escapes_bind_iff_left, toBinary64_escapes_iff hb]
  intro y _ f'
  split_ifs <;> exact not_escapes_ok _ f'

theorem ofValues?_escapes_iff {a b : Number} (ha : (Value.num a).IsMeasure)
    (hb : (Value.num b).IsMeasure) (f : Fault) : Escapes (Bound.ofValues? (.num a) (.num b)) f ↔
      f = .tooLarge ∧ (Value.num a).Exceed (.num b) := by
  rw [ofValues?_of_measures ha hb, escapes_bind_iff, toBinary64_escapes_iff ha]
  constructor
  · rintro (⟨rfl, large⟩ | ⟨x, hx, h⟩)
    · refine ⟨rfl, ha, hb, ?_, .inl large⟩
      obtain ⟨k, ⟨⟩, -⟩ := large
      rintro _ ⟨⟩
      rfl
    · split at h
      · exact absurd h (not_escapes_ok none f)
      · next number =>
        obtain ⟨rfl, large⟩ := (upper_escapes_iff a hb x f).mp h
        refine ⟨rfl, ha, hb, ?_, .inr large⟩
        rintro _ ⟨⟩
        rw [← isNaN_toBinary64 ha hx]
        exact Bool.eq_false_iff.mpr number
  · rintro ⟨rfl, exceed⟩
    by_cases low : (Value.num a).Oversized
    · exact .inl ⟨rfl, low⟩
    · obtain ⟨x, hx⟩ := exists_toBinary64 ha low
      have number := exceed.number a rfl
      rw [← isNaN_toBinary64 ha hx] at number
      refine .inr ⟨x, hx, ?_⟩
      rw [number]
      exact (upper_escapes_iff a hb x _).mpr ⟨rfl, exceed.large.resolve_left low⟩

theorem ofValues_escapes_iff (lo hi : Value) (f : Fault) :
    Escapes (Bound.ofValues lo hi) f ↔ f = .tooLarge ∧ lo.Exceed hi := by
  have parts : Escapes (Bound.ofValues lo hi) f ↔ Escapes (Bound.ofValues? lo hi) f := by
    refine escapes_bind_iff_left _ (fun b _ f' => ?_) f
    cases b with
    | none => exact not_escapes_blamed rfl f'
    | some b => exact not_escapes_ok b f'
  rw [parts]
  by_cases measures : lo.IsMeasure ∧ hi.IsMeasure
  · obtain ⟨a, rfl⟩ := measures.1.exists_number
    obtain ⟨b, rfl⟩ := measures.2.exists_number
    exact ofValues?_escapes_iff measures.1 measures.2 f
  · refine iff_of_false ?_ fun h => measures ⟨h.2.lower, h.2.upper⟩
    have none : Bound.ofValues? lo hi = .ok none := by
      unfold Bound.ofValues?
      split
      case h_5 a b _ _ _ _ =>
        refine absurd ⟨?_, ?_⟩ measures
        · cases a <;> simp_all [Value.IsMeasure]
        · cases b <;> simp_all [Value.IsMeasure]
      all_goals rfl
    rw [none]
    exact not_escapes_ok _ f

theorem sub?_eq_none_iff {x y : Number} (hx : ∀ q, x ≠ .ratio q) (hy : ∀ q, y ≠ .ratio q) :
    x.sub? y = none ↔ (Value.num x).Incomparable (.num y) := by
  cases x with
  | ratio q => exact absurd rfl (hx q)
  | float a =>
    cases y with
    | ratio q => exact absurd rfl (hy q)
    | int k =>
      have large : (Number.float a).sub? (.int k) = none ↔ (Number.int k).toBinary64? = none := by
        change ((Number.int k).toBinary64?.bind fun b => some (Number.float (a.sub b))) = none ↔ _
        cases (Number.int k).toBinary64? <;> simp
      rw [large, ← Value.oversized_int_iff]
      simp [Value.Incomparable]
    | _ => exact iff_of_false (by rintro ⟨⟩) (by simp [Value.Incomparable, Value.Oversized])
  | int k =>
    cases y with
    | ratio q => exact absurd rfl (hy q)
    | float b =>
      have large : (Number.int k).sub? (.float b) = none ↔ (Number.int k).toBinary64? = none := by
        change ((Number.int k).toBinary64?.bind fun a => some (Number.float (a.sub b))) = none ↔ _
        cases (Number.int k).toBinary64? <;> simp
      rw [large, ← Value.oversized_int_iff]
      simp [Value.Incomparable]
    | _ => exact iff_of_false (by rintro ⟨⟩) (by simp [Value.Incomparable, Value.Oversized])
  | bool a =>
    cases y with
    | ratio q => exact absurd rfl (hy q)
    | _ => exact iff_of_false (by rintro ⟨⟩) (by simp [Value.Incomparable, Value.Oversized])

theorem sub_escapes_iff {a b : Value} (ha : a.isDocument = true) (hb : b.isDocument = true)
    (f : Fault) : Escapes (a.sub b) f ↔ f = .tooLarge ∧ a.Incomparable b := by
  by_cases numbers : (∃ x, a = .num x) ∧ ∃ y, b = .num y
  · obtain ⟨⟨x, rfl⟩, ⟨y, rfl⟩⟩ := numbers
    have plain : ∀ q, x ≠ .ratio q := by
      rintro q rfl
      cases ha
    have plain' : ∀ q, y ≠ .ratio q := by
      rintro q rfl
      cases hb
    have parts : Escapes ((Value.num x).sub (.num y)) f ↔
        Escapes (orFault .tooLarge (x.sub? y)) f :=
      escapes_bind_iff_left _ (fun d _ f' => not_escapes_ok _ f') f
    rw [parts, escapes_orFault_iff rfl, sub?_eq_none_iff plain plain']
  · refine iff_of_false ?_ fun h => numbers h.2.numbers
    have refused : a.sub b = .error .illTyped := by
      unfold Value.sub
      split
      case h_1 => exact absurd ⟨⟨_, rfl⟩, _, rfl⟩ numbers
      all_goals first | rfl | simp_all [Value.isDocument]
    rw [refused]
    exact not_escapes_blamed rfl f

/-! ### Constraints and intervals -/

/-- What an interval asks for is made of plain values. -/
structure IntervalSpec.Plain (spec : IntervalSpec) : Prop where
  duration : ∀ m, spec.duration ≠ .span m
  start : spec.start.isDocument = true
  finish : spec.finish.isDocument = true

namespace Network

variable (n : Network)

theorem not_escapes_elements (v : Value) (f : Fault) : ¬Escapes v.elements f := by
  rintro ⟨fault, other⟩
  obtain ⟨-, rfl⟩ := (Value.elements_eq_error_iff v f).mp fault
  cases other

theorem addConstraint_escapes_iff (a b : String) (lo hi : Value) (f : Fault) :
    Escapes (n.addConstraint a b lo hi) f ↔ f = .tooLarge ∧ lo.Exceed hi :=
  (escapes_bind_iff_left _ (fun _ _ f' => not_escapes_ok _ f') f).trans
    (ofValues_escapes_iff lo hi f)

theorem not_escapes_spell (v : Value) (f : Fault) : ¬Escapes v.spell f := by
  obtain ⟨-, spelled⟩ | ⟨-, fault⟩ := v.spell_cases
  · rw [spelled]
    exact not_escapes_ok _ f
  · rw [fault]
    exact not_escapes_blamed rfl f

theorem exists_spell_iff (v : Value) : (∃ s, v.spell = .ok s) ↔ v.isWritable = true := by
  obtain ⟨writable, spelled⟩ | ⟨long, fault⟩ := v.spell_cases
  · exact iff_of_true ⟨_, spelled⟩ writable
  · rw [fault, long]
    simp

theorem addWritten_escapes_iff (entry : Value) (f : Fault) : Escapes (n.addWritten entry) f ↔
    f = .tooLarge ∧ ∃ a b lo hi, entry.elements = .ok [a, b, lo, hi] ∧ a.isWritable = true ∧
      b.isWritable = true ∧ (boundOr .negInf lo).Exceed (boundOr .posInf hi) := by
  unfold addWritten
  simp only [escapes_bind_iff_right (not_escapes_elements entry), ← exists_spell_iff]
  constructor
  · rintro ⟨parts, written, h⟩
    split at h
    · next a b lo hi =>
      obtain ⟨p, hp, h⟩ := (escapes_bind_iff_right (not_escapes_spell a) _ f).mp h
      obtain ⟨q, hq, h⟩ := (escapes_bind_iff_right (not_escapes_spell b) _ f).mp h
      obtain ⟨rfl, large⟩ := (n.addConstraint_escapes_iff _ _ _ _ f).mp h
      exact ⟨rfl, a, b, lo, hi, written, ⟨p, hp⟩, ⟨q, hq⟩, large⟩
    · exact absurd h (not_escapes_blamed rfl f)
  · rintro ⟨rfl, a, b, lo, hi, written, ⟨p, hp⟩, ⟨q, hq⟩, large⟩
    refine ⟨_, written, ?_⟩
    simp only [hp, hq, ok_bind]
    exact (n.addConstraint_escapes_iff _ _ _ _ _).mpr ⟨rfl, large⟩

theorem specOf_escapes_iff (entry : Value) (f : Fault) :
    Escapes (specOf entry) f ↔ f = .unknownAttribute ∧ ∀ kvs, entry ≠ .dict kvs := by
  unfold specOf
  split
  · next kvs =>
    refine iff_of_false ?_ fun h => h.2 kvs rfl
    rw [escapes_bind_iff_right (not_escapes_orFault rfl _)]
    rintro ⟨id, -, h⟩
    obtain ⟨s, -, h⟩ := (escapes_bind_iff_right (not_escapes_spell id) _ f).mp h
    exact not_escapes_ok _ f h
  · next other => exact (escapes_error_iff rfl f).trans (and_iff_left other).symm

theorem not_escapes_lt_int (v : Value) (k : Int) (f : Fault) : ¬Escapes (v.lt (.int k)) f := by
  cases v <;> first
    | exact not_escapes_blamed rfl f
    | simp only [Value.lt_num]; exact not_escapes_ok _ f

theorem durationBounds_escapes_iff (parts : List Value) (f : Fault) :
    Escapes (durationBounds parts) f ↔ f = .indexOutOfRange ∧ parts = [] := by
  unfold durationBounds
  cases parts with
  | nil => exact (escapes_error_iff rfl f).trans (and_iff_left rfl).symm
  | cons first rest =>
    refine iff_of_false ?_ (by rintro ⟨-, ⟨⟩⟩)
    simp only [escapes_bind_iff_right (not_escapes_lt_int first 0)]
    rintro ⟨below, -, h⟩
    cases below with
    | true => exact not_escapes_blamed rfl f h
    | false =>
      match rest with
      | [second] => exact not_escapes_ok _ f h
      | [] | _ :: _ :: _ => exact not_escapes_blamed rfl f h

theorem durationPair_escapes_iff (duration : Value) (plain : ∀ m, duration ≠ .span m) (f : Fault) :
    Escapes (n.durationPair duration) f ↔ f = .indexOutOfRange ∧ duration = .tuple [] := by
  unfold durationPair
  simp only
  split
  · exact absurd rfl (plain _)
  · next xs =>
    exact (durationBounds_escapes_iff xs f).trans
      (and_congr_right fun _ => ⟨congrArg Value.tuple, Value.tuple.inj⟩)
  · next other =>
    refine (durationBounds_escapes_iff [duration, duration] f).trans (iff_of_false ?_ ?_)
    · rintro ⟨-, ⟨⟩⟩
    · rintro ⟨-, rfl⟩
      exact other [] rfl

theorem ticksOf_document {v : Value} (h : v.isDocument = true) : n.ticksOf v = .ok v := by
  cases v <;> first | rfl | cases h

theorem specDuration_escapes_iff (spec : IntervalSpec) (plain : spec.Plain) (f : Fault) :
    Escapes (n.specDuration spec spec.start spec.finish) f ↔
      f = .indexOutOfRange ∧ spec.duration = .tuple [] ∨
      f = .tooLarge ∧ spec.duration = .null ∧ spec.finish.Incomparable spec.start := by
  by_cases absent : spec.duration = .null
  · have alone : (f = .indexOutOfRange ∧ spec.duration = .tuple [] ∨
        f = .tooLarge ∧ spec.duration = .null ∧ spec.finish.Incomparable spec.start) ↔
        f = .tooLarge ∧ spec.finish.Incomparable spec.start := by
      simp [absent]
    rw [alone]
    unfold specDuration
    split
    · next start =>
      refine iff_of_false (not_escapes_blamed rfl f) fun h => ?_
      obtain ⟨x, hx⟩ := h.2.numbers.2
      cases start.symm.trans hx
    · next finish _ =>
      refine iff_of_false (not_escapes_blamed rfl f) fun h => ?_
      obtain ⟨x, hx⟩ := h.2.numbers.1
      cases finish.symm.trans hx
    · exact (escapes_bind_iff_left _ (fun _ _ f' => not_escapes_ok _ f') f).trans
        (sub_escapes_iff plain.finish plain.start f)
    · next given _ _ => exact absurd absent given
  · rw [n.specDuration_given spec absent, n.durationPair_escapes_iff _ plain.duration]
    simp [absent]

theorem anchor_escapes_iff (p : String) (v : Value) (f : Fault) :
    Escapes (n.anchor p v) f ↔ f = .tooLarge ∧ v.Oversized := by
  unfold anchor
  split
  · exact iff_of_false (not_escapes_ok n f) (by rintro ⟨-, _, ⟨⟩, -⟩)
  · rw [addConstraint_escapes_iff, Value.exceed_self_iff]

theorem not_escapes_toMetadata (v : Value) (f : Fault) : ¬Escapes v.toMetadata f := by
  unfold Value.toMetadata
  split
  · rintro ⟨fault, other⟩
    obtain ⟨e, -, fault⟩ := error_of_mapM _ _ f fault
    split at fault
    · split at fault <;> cases fault
      cases other
    · cases fault
      cases other
  · exact not_escapes_blamed rfl f

/-- Why nobody is blamed for an interval: its duration is empty, or it would be written with an
integer that is too large, in the order in which its parts are looked at. -/
inductive SpecEscapes (spec : IntervalSpec) : Fault → Prop
  | empty (h : spec.duration = .tuple []) : SpecEscapes spec .indexOutOfRange
  | length (absent : spec.duration = .null) (h : spec.finish.Incomparable spec.start) :
    SpecEscapes spec .tooLarge
  | duration (lo hi : Value) (h : n.specDuration spec spec.start spec.finish = .ok (lo, hi))
    (large : lo.Exceed hi) : SpecEscapes spec .tooLarge
  | start (lo hi : Value) (h : n.specDuration spec spec.start spec.finish = .ok (lo, hi))
    (b : Bound) (usable : Bound.ofValues lo hi = .ok b) (large : spec.start.Oversized) :
    SpecEscapes spec .tooLarge
  | finish (lo hi : Value) (h : n.specDuration spec spec.start spec.finish = .ok (lo, hi))
    (b : Bound) (usable : Bound.ofValues lo hi = .ok b) (started : spec.start.Anchors)
    (large : spec.finish.Oversized) : SpecEscapes spec .tooLarge

theorem addConstraint_of_usable (a b : String) {lo hi : Value} {bound : Bound}
    (usable : Bound.ofValues lo hi = .ok bound) :
    n.addConstraint a b lo hi = .ok (n.addBound a b bound) := by
  rw [addConstraint, usable]
  rfl

theorem addConstraint_bind_escapes_iff (a b : String) (lo hi : Value)
    (next : Network → Except Fault Network) (f : Fault) :
    Escapes (n.addConstraint a b lo hi >>= next) f ↔ f = .tooLarge ∧ lo.Exceed hi ∨
      ∃ bound, Bound.ofValues lo hi = .ok bound ∧ Escapes (next (n.addBound a b bound)) f := by
  rw [escapes_bind_iff, addConstraint_escapes_iff]
  refine or_congr_right ?_
  constructor
  · rintro ⟨m, hm, h⟩
    obtain ⟨bound, usable, made⟩ := (bind_eq_ok_iff _ _ _).mp hm
    cases made
    exact ⟨bound, usable, h⟩
  · rintro ⟨bound, usable, h⟩
    exact ⟨_, n.addConstraint_of_usable a b usable, h⟩

theorem exists_anchor_iff (p : String) (v : Value) :
    (∃ m, n.anchor p v = .ok m) ↔ v.Anchors := by
  unfold anchor
  split
  · exact iff_of_true ⟨n, rfl⟩ (.inl rfl)
  · next given =>
    constructor
    · rintro ⟨m, h⟩
      obtain ⟨b, usable, -⟩ := (bind_eq_ok_iff _ _ _).mp h
      exact .inr ⟨b, usable⟩
    · rintro (rfl | ⟨b, usable⟩)
      · exact absurd rfl given
      · exact ⟨_, n.addConstraint_of_usable _ _ usable⟩

/-- The two ends of an interval are anchored one after the other, and what follows stops for no
unexpected fault. -/
theorem anchors_escapes_iff (p q : String) (v w : Value) {next : Network → Except Fault Network}
    (never : ∀ m f, ¬Escapes (next m) f) (f : Fault) :
    Escapes (do next (← (← n.anchor p v).anchor q w)) f ↔
      f = .tooLarge ∧ (v.Oversized ∨ v.Anchors ∧ w.Oversized) := by
  rw [escapes_bind_iff, anchor_escapes_iff, and_or_left]
  refine or_congr_right ?_
  rw [← n.exists_anchor_iff p]
  constructor
  · rintro ⟨m, hm, h⟩
    rw [escapes_bind_iff_left _ fun m' _ => never m', anchor_escapes_iff] at h
    exact ⟨h.1, ⟨m, hm⟩, h.2⟩
  · rintro ⟨rfl, ⟨m, hm⟩, large⟩
    refine ⟨m, hm, ?_⟩
    rw [escapes_bind_iff_left _ fun m' _ => never m', anchor_escapes_iff]
    exact ⟨rfl, large⟩

theorem not_escapes_described (spec : IntervalSpec) (f : Fault) :
    ¬Escapes (n.described spec) f := by
  unfold described
  split
  · rw [escapes_bind_iff_right (not_escapes_toMetadata _)]
    rintro ⟨data, -, h⟩
    exact not_escapes_ok _ f h
  · exact not_escapes_ok n f

theorem addInterval_escapes_iff (spec : IntervalSpec) (plain : spec.Plain) (f : Fault) :
    Escapes (n.addInterval spec) f ↔ n.SpecEscapes spec f := by
  unfold addInterval
  rw [n.ticksOf_document plain.start, n.ticksOf_document plain.finish, ok_bind, ok_bind,
    escapes_bind_iff, n.specDuration_escapes_iff spec plain]
  have described := fun m : Network => m.not_escapes_described spec
  constructor
  · rintro ((⟨rfl, empty⟩ | ⟨rfl, absent, apart⟩) | ⟨⟨lo, hi⟩, given, h⟩)
    · exact .empty empty
    · exact .length absent apart
    obtain ⟨rfl, large⟩ | ⟨b, usable, h⟩ := (addConstraint_bind_escapes_iff _ _ _ lo hi _ f).mp h
    · exact .duration lo hi given large
    obtain ⟨rfl, large | ⟨started, large⟩⟩ :=
      (anchors_escapes_iff _ _ _ _ _ described f).mp h
    · exact .start lo hi given b usable large
    · exact .finish lo hi given b usable started large
  · intro h
    cases h with
    | empty h => exact .inl (.inl ⟨rfl, h⟩)
    | length absent h => exact .inl (.inr ⟨rfl, absent, h⟩)
    | duration lo hi given large =>
      exact .inr ⟨(lo, hi), given,
        (addConstraint_bind_escapes_iff _ _ _ lo hi _ _).mpr (.inl ⟨rfl, large⟩)⟩
    | start lo hi given b usable large =>
      refine .inr ⟨(lo, hi), given,
        (addConstraint_bind_escapes_iff _ _ _ lo hi _ _).mpr (.inr ⟨b, usable, ?_⟩)⟩
      exact (anchors_escapes_iff _ _ _ _ _ described _).mpr ⟨rfl, .inl large⟩
    | finish lo hi given b usable started large =>
      refine .inr ⟨(lo, hi), given,
        (addConstraint_bind_escapes_iff _ _ _ lo hi _ _).mpr (.inr ⟨b, usable, ?_⟩)⟩
      exact (anchors_escapes_iff _ _ _ _ _ described _).mpr ⟨rfl, .inr ⟨started, large⟩⟩

/-! ### Files -/

theorem specOf_plain {entry : Value} (h : entry.isDocument = true) {spec : IntervalSpec}
    (hs : specOf entry = .ok spec) : spec.Plain := by
  unfold specOf at hs
  split at hs
  · next kvs =>
    obtain ⟨id, -, hs⟩ := (bind_eq_ok_iff _ _ _).mp hs
    obtain ⟨name, -, hs⟩ := (bind_eq_ok_iff _ _ _).mp hs
    cases hs
    refine ⟨fun m span => ?_, Value.partOr_document h rfl _, Value.partOr_document h rfl _⟩
    have duration : ((Value.dict kvs).partOr "duration" .null).isDocument = true :=
      Value.partOr_document h rfl "duration"
    simp only at span
    split at span
    · cases span
    · rw [span] at duration
      cases duration
  · cases hs

theorem not_escapes_unit (v : Value) (f : Fault) : ¬Escapes (TimeUnit.ofValue v) f := by
  cases v with
  | str s => exact not_escapes_orFault rfl (TimeUnit.ofName? s) f
  | _ => exact not_escapes_blamed rfl f

theorem not_escapes_detail (v : Value) (f : Fault) : ¬Escapes (Detail.ofValue v) f := by
  cases v with
  | str s => exact not_escapes_orFault rfl (Detail.ofName? s) f
  | _ => exact not_escapes_blamed rfl f

theorem not_escapes_part (v : Linked) (name : String) (f : Fault) : ¬Escapes (v.part name) f := by
  unfold Linked.part
  split
  · exact not_escapes_ok [] f
  · unfold Linked.elements
    split
    · exact not_escapes_ok _ f
    · exact not_escapes_elements _ f

/-- The network of a file before its entries are added. -/
def started (v : Linked) : Except Fault Network := do
  let unit ← TimeUnit.ofValue (v.partOr "time_unit" (.str "second"))
  let detail ← Detail.ofValue (v.partOr "lod_level" (.str "medium"))
  return Network.empty unit detail false 4

/-- Adds an interval as it is written. -/
def addEntry (entry : Value) : Except Fault Network := do
  n.addInterval (← specOf entry)

/-- Adds the entries of a part of a file one after another. -/
def addPart (v : Linked) (name : String) (step : Network → Value → Except Fault Network)
    (begun : Except Fault Network) : Except Fault Network := do
  let n ← begun
  (← v.part name).foldlM step n

/-- The network of a file with its constraints. -/
def constrained (v : Linked) : Except Fault Network :=
  addPart v "constraints" addWritten (started v)

/-- This network is at hand when this entry of a part is reached. -/
def Meets (v : Linked) (name : String) (step : Network → Value → Except Fault Network)
    (begun : Except Fault Network) (n : Network) (entry : Value) : Prop :=
  ∃ n₀ before after, begun = .ok n₀ ∧ v.part name = .ok (before ++ entry :: after) ∧
    before.foldlM step n₀ = .ok n

theorem addPart_escapes_iff (v : Linked) (name : String)
    (step : Network → Value → Except Fault Network) (begun : Except Fault Network) (f : Fault) :
    Escapes (addPart v name step begun) f ↔
      Escapes begun f ∨ ∃ n e, Meets v name step begun n e ∧ Escapes (step n e) f := by
  unfold addPart
  rw [escapes_bind_iff]
  refine or_congr_right ?_
  simp only [escapes_bind_iff_right (not_escapes_part v name), escapes_foldlM_iff]
  constructor
  · rintro ⟨n₀, begun, _, given, before, e, after, n, rfl, made, h⟩
    exact ⟨n, e, ⟨n₀, before, after, begun, given, made⟩, h⟩
  · rintro ⟨n, e, ⟨n₀, before, after, begun, given, made⟩, h⟩
    exact ⟨n₀, begun, _, given, before, e, after, n, rfl, made, h⟩

theorem not_escapes_started (v : Linked) (f : Fault) : ¬Escapes (started v) f := by
  unfold started
  rw [escapes_bind_iff_right (not_escapes_unit _)]
  rintro ⟨unit, -, h⟩
  obtain ⟨detail, -, h⟩ := (escapes_bind_iff_right (not_escapes_detail _) _ f).mp h
  exact not_escapes_ok _ f h

theorem read_eq (v : Linked) : read v = addPart v "intervals" addEntry (constrained v) := by
  simp only [read, constrained, addPart, started, bind_assoc, pure_bind]
  rfl

/-- Why nobody is blamed for a file: a constraint between points that can be written is reached
that has an integer which is too large, or an interval that is no mapping or has such an integer or
an empty duration. -/
inductive FileEscapes (v : Linked) : Fault → Prop
  | constraint (n : Network) (e : Value)
    (reached : Meets v "constraints" addWritten (started v) n e) (a b lo hi : Value)
    (written : e.elements = .ok [a, b, lo, hi])
    (named : a.isWritable = true ∧ b.isWritable = true)
    (large : (boundOr .negInf lo).Exceed (boundOr .posInf hi)) : FileEscapes v .tooLarge
  | shape (n : Network) (e : Value)
    (reached : Meets v "intervals" addEntry (constrained v) n e) (other : ∀ kvs, e ≠ .dict kvs) :
    FileEscapes v .unknownAttribute
  | interval (n : Network) (e : Value)
    (reached : Meets v "intervals" addEntry (constrained v) n e) (spec : IntervalSpec)
    (written : specOf e = .ok spec) (f : Fault) (h : n.SpecEscapes spec f) : FileEscapes v f

theorem Meets.document {v : Linked} (h : v.toValue.isDocument = true) {name : String}
    {step : Network → Value → Except Fault Network} {begun : Except Fault Network} {n : Network}
    {e : Value} (reached : Meets v name step begun n e) : e.isDocument = true := by
  obtain ⟨n₀, before, after, -, given, -⟩ := reached
  exact Linked.part_document h given e (List.mem_append_right before List.mem_cons_self)

theorem addEntry_escapes_iff {e : Value} (h : e.isDocument = true) (f : Fault) :
    Escapes (n.addEntry e) f ↔ (f = .unknownAttribute ∧ ∀ kvs, e ≠ .dict kvs) ∨
      ∃ spec, specOf e = .ok spec ∧ n.SpecEscapes spec f := by
  unfold addEntry
  rw [escapes_bind_iff, specOf_escapes_iff]
  refine or_congr_right (exists_congr fun spec => and_congr_right fun written => ?_)
  exact n.addInterval_escapes_iff spec (specOf_plain h written) f

theorem read_escapes_iff {v : Linked} (h : v.toValue.isDocument = true) (f : Fault) :
    Escapes (read v) f ↔ FileEscapes v f := by
  rw [read_eq, addPart_escapes_iff, constrained, addPart_escapes_iff,
    or_iff_right (not_escapes_started v f)]
  constructor
  · rintro (⟨n, e, reached, stop⟩ | ⟨n, e, reached, stop⟩)
    · obtain ⟨rfl, a, b, lo, hi, written, p, q, large⟩ := (n.addWritten_escapes_iff e f).mp stop
      exact .constraint n e reached a b lo hi written ⟨p, q⟩ large
    · obtain ⟨rfl, other⟩ | ⟨spec, written, h⟩ :=
        (n.addEntry_escapes_iff (reached.document h) f).mp stop
      · exact .shape n e reached other
      · exact .interval n e reached spec written f h
  · intro reason
    cases reason with
    | constraint n e reached a b lo hi written named large =>
      exact .inl ⟨n, e, reached,
        (n.addWritten_escapes_iff e _).mpr ⟨rfl, a, b, lo, hi, written, named.1, named.2, large⟩⟩
    | shape n e reached other =>
      exact .inr ⟨n, e, reached,
        (n.addEntry_escapes_iff (reached.document h) _).mpr (.inl ⟨rfl, other⟩)⟩
    | interval n e reached spec written f stop =>
      exact .inr ⟨n, e, reached,
        (n.addEntry_escapes_iff (reached.document h) _).mpr (.inr ⟨spec, written, stop⟩)⟩

end Network

namespace CommandLine

theorem readNetwork_eq {folder : Folder} {path : String} {v : Linked}
    (file : readMapping folder path = .ok v) :
    readNetwork folder path = (Network.read v).mapError fun f =>
      if blamesNetwork f then .network (Path.normal path) f else .unexpected f := by
  simp only [readNetwork, file, bind, Except.bind]
  cases Network.read v with
  | ok n => rfl
  | error f =>
    dsimp only [Except.mapError]
    split <;> rfl

theorem network_message (path : String) (f : Fault) : ∃ detail,
    (Failure.network path f).message = some ("Invalid network file " ++ path ++ detail) := by
  cases h : f.message with
  | none => exact ⟨"", by simp [Failure.message, Failure.withDetail, h]⟩
  | some m =>
    exact ⟨": " ++ m, by simp [Failure.message, Failure.withDetail, h, String.append_assoc]⟩

theorem readNetwork_unexpected_iff {folder : Folder} {path : String} {v : Linked}
    (file : readMapping folder path = .ok v) (f : Fault) :
    readNetwork folder path = .error (.unexpected f) ↔ Escapes (Network.read v) f := by
  rw [readNetwork_eq file]
  cases Network.read v with
  | ok n => exact iff_of_false (by rintro ⟨⟩) (not_escapes_ok n f)
  | error e =>
    cases blamed : blamesNetwork e with
    | true => exact iff_of_false (by simp [Except.mapError, blamed]) (not_escapes_blamed blamed f)
    | false =>
      rw [escapes_error_iff blamed, eq_comm]
      simp [Except.mapError, blamed]

/-- A network file of plain values is read as a network, or it is blamed for what is wrong with
it, or a fault is passed on that nobody is blamed for. The last is so exactly where one of the
three unexpected faults is met. -/
theorem network_read_or_refused (folder : Folder) (path : String) (v : Linked)
    (file : readMapping folder path = .ok v) (document : v.toValue.isDocument = true) :
    ((∃ n, readNetwork folder path = .ok n) ∨
      (∃ f detail, readNetwork folder path = .error (.network (Path.normal path) f) ∧
        (Failure.network (Path.normal path) f).message =
          some ("Invalid network file " ++ Path.normal path ++ detail)) ∨
      ∃ f, readNetwork folder path = .error (.unexpected f)) ∧
    ∀ f, readNetwork folder path = .error (.unexpected f) ↔ Network.FileEscapes v f := by
  constructor
  · rw [readNetwork_eq file]
    cases Network.read v with
    | ok n => exact .inl ⟨n, rfl⟩
    | error f =>
      rw [Except.mapError]
      split
      · obtain ⟨detail, message⟩ := network_message (Path.normal path) f
        exact .inr (.inl ⟨f, detail, rfl, message⟩)
      · exact .inr (.inr ⟨f, rfl⟩)
  · exact fun f =>
      (readNetwork_unexpected_iff file f).trans (Network.read_escapes_iff document f)

end CommandLine

namespace Estuary

open CommandLine

def holding (text : String) : Folder := fun _ => .file text

def readTides (text : String) : Run Network := readNetwork (holding text) "tides.yaml"

/-- A file of plain values. -/
def IsPlain (text : String) : Prop := ∃ v, readMapping (holding text) "tides.yaml" = .ok v ∧
  v.toValue.isDocument = true

theorem isPlain_of_read {text : String}
    (read : (readMapping (holding text) "tides.yaml").toOption.map
      (fun v => v.toValue.isDocument) = some true) : IsPlain text := by
  obtain ⟨v, hv, plain⟩ := Option.map_eq_some_iff.mp read
  exact ⟨v, toOption_eq_some_iff.mp hv, plain⟩

/-- How the reading of a file ends: with these points, with blame for the file, or with a fault
that is passed on, given by its place among the faults. -/
inductive Ending
  | points (ps : List String)
  | blamed
  | passedOn (fault : Nat)
  | other
deriving DecidableEq

def Ending.of : Run Network → Ending
  | .ok n => .points n.points
  | .error (.network _ _) => .blamed
  | .error (.unexpected f) => .passedOn f.ctorIdx
  | .error _ => .other

theorem passed_of_ending {x : Run Network} {k : Nat} (read : Ending.of x = .passedOn k) :
    ∃ f, x = .error (.unexpected f) ∧ f.ctorIdx = k := by
  unfold Ending.of at read
  split at read
  · cases read
  · cases read
  · next f => exact ⟨f, rfl, Ending.passedOn.inj read⟩
  · cases read

def bounded : String := "intervals:\n  - {id: flood, start: 5, duration: 3}\n"

def openEnded : String := "intervals: [{id: flood, start: 5}]\n"

/-- A flood with an end is read, and one that never ends is the fault of its file. -/
theorem tides_read_or_refused :
    (∃ n, readTides bounded = .ok n ∧ n.points = ["flood_end", "flood_start", "origin"]) ∧
    ∃ f detail, readTides openEnded = .error (.network (Path.normal "tides.yaml") f) ∧
      (Failure.network (Path.normal "tides.yaml") f).message =
        some ("Invalid network file " ++ Path.normal "tides.yaml" ++ detail) := by
  constructor
  · have read : Ending.of (readTides bounded) =
        .points ["flood_end", "flood_start", "origin"] := by decide +kernel
    obtain ⟨v, file, plain⟩ : IsPlain bounded := isPlain_of_read (by decide +kernel)
    obtain ⟨n, hn⟩ | ⟨f, detail, refused, -⟩ | ⟨f, passed⟩ :=
      (network_read_or_refused _ _ v file plain).1
    · rw [readTides, hn] at read
      exact ⟨n, hn, Ending.points.inj read⟩
    · rw [readTides, refused] at read
      cases read
    · rw [readTides, passed] at read
      cases read
  · have read : Ending.of (readTides openEnded) = .blamed := by decide +kernel
    obtain ⟨v, file, plain⟩ : IsPlain openEnded := isPlain_of_read (by decide +kernel)
    obtain ⟨n, hn⟩ | refused | ⟨f, passed⟩ := (network_read_or_refused _ _ v file plain).1
    · rw [readTides, hn] at read
      cases read
    · exact refused
    · rw [readTides, passed] at read
      cases read

def numbered : String := "intervals: [5]\n"

def instant : String := "intervals: [{id: flood, duration: []}]\n"

/-- A bound that no binary64 is near to. -/
def boundless : Value := .dict [(.str "constraints",
  .list [.list [.str "ebb", .str "flood", .int 0, .int (16 ^ 256)]])]

/-- Nobody is blamed for an interval that is a number, for an empty duration and for a bound that
is too large. -/
theorem tides_passed_on :
    (IsPlain numbered ∧ readTides numbered = .error (.unexpected .unknownAttribute)) ∧
    (IsPlain instant ∧ readTides instant = .error (.unexpected .indexOutOfRange)) ∧
    boundless.isDocument = true ∧
    ∀ folder path, readMapping folder path = .ok (.ofValue boundless) →
      readNetwork folder path = .error (.unexpected .tooLarge) := by
  have shape : Ending.of (readTides numbered) = .passedOn Fault.unknownAttribute.ctorIdx := by
    decide +kernel
  have empty : Ending.of (readTides instant) = .passedOn Fault.indexOutOfRange.ctorIdx := by
    decide +kernel
  refine ⟨⟨isPlain_of_read (by decide +kernel), ?_⟩, ⟨isPlain_of_read (by decide +kernel), ?_⟩,
    by decide +kernel, fun folder path file => ?_⟩
  · obtain ⟨f, passed, same⟩ := passed_of_ending shape
    cases f <;> first | exact passed | cases same
  · obtain ⟨f, passed, same⟩ := passed_of_ending empty
    cases f <;> first | exact passed | cases same
  have read : stopsTooLarge (Network.read (.ofValue boundless)) = true := by decide +kernel
  rw [readNetwork_eq file, stopsTooLarge_iff.mp read]
  rfl

end Estuary

end Chronoplan
