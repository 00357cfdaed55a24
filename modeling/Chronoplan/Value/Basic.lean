import Chronoplan.Number.Basic
import Chronoplan.Calendar
import Chronoplan.Table

/-!
# Values

The untyped data that facts, arguments, problem files and configuration trees hold. Equality is
equality of what is written: numbers by their exact value whatever their spelling, sequences
element by element with lists and tuples apart, mappings by their entries and sets by their
members in any order. A NaN equals nothing, but inside a container it is the same as itself.
-/

set_option autoImplicit false

namespace Chronoplan

inductive Value
  | null
  | num (n : Number)
  | str (s : String)
  | bytes (octets : List Nat)
  | list (xs : List Value)
  | tuple (xs : List Value)
  | set (members : List Value)
  | dict (entries : List (Value × Value))
  /-- An enclosing list or mapping, met again inside itself. -/
  | cycle (mapping : Bool)
  | span (micros : Int)
  | date (d : Date)
  | moment (t : Moment)

namespace Value

abbrev bool (b : Bool) : Value := .num (.bool b)

abbrev int (n : Int) : Value := .num (.int n)

abbrev float (x : Binary64) : Value := .num (.float x)

abbrev ratio (q : Rat) : Value := .num (.ratio q)

instance : Inhabited Value := ⟨.null⟩

def sameNaN : Value → Value → Bool
  | .num (.float x), .num (.float y) => x.sameNaN y
  | _, _ => false

mutual

def eq : Value → Value → Bool
  | .null, .null => true
  | .num a, .num b => a.eq b
  | .str a, .str b => a == b
  | .bytes a, .bytes b => a == b
  | .list a, .list b => eqAll a b
  | .tuple a, .tuple b => eqAll a b
  | .set a, .set b => a.length == b.length && allIn a b
  | .dict a, .dict b => a.length == b.length && within a b
  | .span a, .span b => a == b
  | .date a, .date b => a == b
  | .moment a, .moment b => a.same b
  | _, _ => false
termination_by a b => sizeOf a + sizeOf b

def eqAll : List Value → List Value → Bool
  | [], [] => true
  | a :: as, b :: bs => (eq a b || sameNaN a b) && eqAll as bs
  | _, _ => false
termination_by as bs => sizeOf as + sizeOf bs

def allIn : List Value → List Value → Bool
  | [], _ => true
  | a :: as, b => memberOf a b && allIn as b
termination_by as b => sizeOf as + sizeOf b

def memberOf (a : Value) : List Value → Bool
  | [] => false
  | b :: bs => eq a b || sameNaN a b || memberOf a bs
termination_by b => sizeOf a + sizeOf b

def within : List (Value × Value) → List (Value × Value) → Bool
  | [], _ => true
  | (k, v) :: r, b => entryIn k v b && within r b
termination_by a b => sizeOf a + sizeOf b

def entryIn (k v : Value) : List (Value × Value) → Bool
  | [] => false
  | (k', v') :: r => if eq k k' || sameNaN k k' then eq v v' || sameNaN v v' else entryIn k v r
termination_by r => sizeOf k + sizeOf v + sizeOf r

end

def alike (a b : Value) : Bool := eq a b || sameNaN a b

mutual

/-- Only values without a changeable part can be keys. -/
def isKey : Value → Bool
  | .list _ => false
  | .set _ => false
  | .dict _ => false
  | .cycle _ => false
  | .tuple xs => areKeys xs
  | _ => true

def areKeys : List Value → Bool
  | [] => true
  | x :: xs => isKey x && areKeys xs

end

def truthy : Value → Bool
  | .null => false
  | .num n => !n.isZero
  | .str s => s != ""
  | .bytes octets => !octets.isEmpty
  | .list xs => !xs.isEmpty
  | .tuple xs => !xs.isEmpty
  | .set xs => !xs.isEmpty
  | .dict kvs => !kvs.isEmpty
  | .span m => m != 0
  | _ => true

def lookup (k : Value) (kvs : List (Value × Value)) : Option Value := Table.find? alike k kvs

def field? (name : String) : Value → Option Value
  | .dict kvs => lookup (.str name) kvs
  | _ => none

def number? : Value → Option Number
  | .num n => some n
  | _ => none

def text? : Value → Option String
  | .str s => some s
  | _ => none

def kindName : Value → String
  | .null => "NoneType"
  | .num (.bool _) => "bool"
  | .num (.int _) => "int"
  | .num (.float _) => "float"
  | .num (.ratio _) => "Fraction"
  | .str _ => "str"
  | .bytes _ => "bytes"
  | .list _ => "list"
  | .tuple _ => "tuple"
  | .set _ => "set"
  | .dict _ => "dict"
  | .cycle mapping => if mapping then "dict" else "list"
  | .span _ => "timedelta"
  | .date _ => "date"
  | .moment _ => "datetime"

@[simp] theorem eq_str (a b : String) : eq (.str a) (.str b) = (a == b) := by
  simp [eq]

@[simp] theorem eq_num (a b : Number) : eq (.num a) (.num b) = a.eq b := by
  simp [eq]

@[simp] theorem alike_str (a b : String) : alike (.str a) (.str b) = (a == b) := by
  simp [alike, sameNaN]

end Value

end Chronoplan
