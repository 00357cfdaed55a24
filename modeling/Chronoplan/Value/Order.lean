import Chronoplan.Fault

/-!
# Order and arithmetic of values

Numbers compare with numbers, texts with texts, times with times of the same kind and sequences
with sequences of the same kind, element by element; a set is below the sets that contain more.
Sums also join texts and sequences, times have differences, and a time span leads from one time
to another. Everything else is ill-typed.
-/

set_option autoImplicit false

namespace Chronoplan

namespace Value

mutual

def lt : Value → Value → Except Fault Bool
  | .num a, .num b => .ok (a.lt b)
  | .str a, .str b => .ok (decide (a < b))
  | .bytes a, .bytes b => .ok (decide (a < b))
  | .set a, .set b => .ok (decide (a.length < b.length) && allIn a b)
  | .list a, .list b => ltAll a b
  | .tuple a, .tuple b => ltAll a b
  | .span a, .span b => .ok (decide (a < b))
  | .date a, .date b => .ok (decide (a.dayNumber < b.dayNumber))
  | .moment a, .moment b =>
    if a.offset.isSome == b.offset.isSome then .ok (decide (a.micros < b.micros))
    else .error .illTyped
  | _, _ => .error .illTyped

def ltAll : List Value → List Value → Except Fault Bool
  | _, [] => .ok false
  | [], _ :: _ => .ok true
  | a :: as, b :: bs => if alike a b then ltAll as bs else lt a b

end

def le (a b : Value) : Except Fault Bool :=
  match a, b with
  | .num x, .num y => .ok (x.le y)
  | _, _ => do return (← lt a b) || eq a b

def spanOf (micros : Int) : Except Fault Value := do
  return .span (← orFault .tooLarge (Span.inRange? micros))

def laterDate (d : Date) (days : Int) : Except Fault Value := do
  return .date (← orFault .tooLarge (Date.ofDayNumber? (d.dayNumber + days)))

def laterMoment (t : Moment) (micros : Int) : Except Fault Value := do
  return .moment (← orFault .tooLarge (t.shift? micros))

def add (a b : Value) : Except Fault Value :=
  match a, b with
  | .num x, .num y => do return .num (← orFault .tooLarge (x.add? y))
  | .str x, .str y => .ok (.str (x ++ y))
  | .bytes x, .bytes y => .ok (.bytes (x ++ y))
  | .list x, .list y => .ok (.list (x ++ y))
  | .tuple x, .tuple y => .ok (.tuple (x ++ y))
  | .span x, .span y => spanOf (x + y)
  | .date d, .span x => laterDate d (Span.days x)
  | .span x, .date d => laterDate d (Span.days x)
  | .moment t, .span x => laterMoment t x
  | .span x, .moment t => laterMoment t x
  | _, _ => .error .illTyped

def sub (a b : Value) : Except Fault Value :=
  match a, b with
  | .num x, .num y => do return .num (← orFault .tooLarge (x.sub? y))
  | .set x, .set y => .ok (.set (x.filter fun a => !memberOf a y))
  | .span x, .span y => spanOf (x - y)
  | .date d, .span x => laterDate d (-Span.days x)
  | .moment t, .span x => laterMoment t (-x)
  | .date x, .date y => .ok (.span ((x.dayNumber - y.dayNumber) * 86400000000))
  | .moment x, .moment y =>
    if x.offset.isSome == y.offset.isSome then .ok (.span (x.micros - y.micros))
    else .error .illTyped
  | _, _ => .error .illTyped

def neg : Value → Except Fault Value
  | .num n => .ok (.num n.neg)
  | .span m => spanOf (-m)
  | _ => .error .illTyped

def element (xs : List Value) (i : Int) : Except Fault Value :=
  if 0 ≤ i then orFault .indexOutOfRange xs[i.toNat]?
  else if -i ≤ xs.length then orFault .indexOutOfRange xs[(xs.length + i).toNat]?
  else .error .indexOutOfRange

def item (v place : Value) : Except Fault Value :=
  let index : Except Fault Int :=
    match place with
    | .num n => orFault .illTyped n.toInt?
    | _ => .error .illTyped
  match v with
  | .list xs => do element xs (← index)
  | .tuple xs => do element xs (← index)
  | .str s => do element (s.toList.map fun c => .str (String.singleton c)) (← index)
  | .bytes octets => do element (octets.map fun n => .int (Int.ofNat n)) (← index)
  | .dict kvs => if place.isKey then orFault .unknownKey (lookup place kvs) else .error .illTyped
  | _ => .error .illTyped

/-- What a loop over a value runs through: the elements of a sequence or set, the keys of a mapping,
the characters of a text. -/
def elements : Value → Except Fault (List Value)
  | .list xs => .ok xs
  | .tuple xs => .ok xs
  | .dict kvs => .ok (kvs.map Prod.fst)
  | .set xs => .ok xs
  | .str s => .ok (s.toList.map fun c => .str (String.singleton c))
  | .bytes octets => .ok (octets.map fun n => .int (Int.ofNat n))
  | _ => .error .illTyped

theorem lt_num (a b : Number) : lt (.num a) (.num b) = .ok (a.lt b) := by
  simp [lt]

end Value

end Chronoplan
