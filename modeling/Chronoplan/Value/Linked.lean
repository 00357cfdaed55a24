import Chronoplan.Value.Order

/-!
# Values with shared parts

A text can name a container and refer to it from elsewhere, even from inside it. All references
then lead to one container, so that a change is seen through each of them. A container that can be
reached in several ways carries a link that tells it from all others, and link 0 belongs to those
to which there is one way; inside itself a container is met again as its link. The links of calendar
values only tell which of them are one.
-/

set_option autoImplicit false

namespace Chronoplan

inductive Linked
  | leaf (link : Nat) (v : Value)
  | list (link : Nat) (items : List Linked)
  | tuple (items : List Linked)
  | set (link : Nat) (members : List Value)
  | dict (link : Nat) (entries : List (Value × Linked))
  | again (link : Nat) (mapping : Bool)
  /-- What an entry holds whose key, a calendar value, carries a link of its own. -/
  | keyed (link : Nat) (v : Linked)

namespace Linked

abbrev Entries := Table Value Linked

/-! ## Plain values -/

mutual

def ofValue : Value → Linked
  | .list xs => .list 0 (ofValues xs)
  | .tuple xs => .tuple (ofValues xs)
  | .set xs => .set 0 xs
  | .dict kvs => .dict 0 (ofEntries kvs)
  | v => .leaf 0 v

def ofValues : List Value → List Linked
  | [] => []
  | v :: r => ofValue v :: ofValues r

def ofEntries : List (Value × Value) → Entries
  | [] => []
  | (k, v) :: r => (k, ofValue v) :: ofEntries r

end

mutual

def toValue : Linked → Value
  | .leaf _ v => v
  | .list _ xs => .list (toValues xs)
  | .tuple xs => .tuple (toValues xs)
  | .set _ xs => .set xs
  | .dict _ kvs => .dict (toEntries kvs)
  | .again _ mapping => .cycle mapping
  | .keyed _ v => toValue v

def toValues : List Linked → List Value
  | [] => []
  | v :: r => toValue v :: toValues r

def toEntries : Entries → List (Value × Value)
  | [] => []
  | (k, v) :: r => (k, toValue v) :: toEntries r

end

mutual

@[simp] theorem toValue_ofValue : (v : Value) → toValue (ofValue v) = v
  | .list xs => by simp [ofValue, toValue, toValues_ofValues xs]
  | .tuple xs => by simp [ofValue, toValue, toValues_ofValues xs]
  | .dict kvs => by simp [ofValue, toValue, toEntries_ofEntries kvs]
  | .set _ => rfl
  | .null => rfl
  | .num _ => rfl
  | .str _ => rfl
  | .bytes _ => rfl
  | .cycle _ => rfl
  | .span _ => rfl
  | .date _ => rfl
  | .moment _ => rfl

theorem toValues_ofValues : (vs : List Value) → toValues (ofValues vs) = vs
  | [] => rfl
  | v :: r => by simp [ofValues, toValues, toValue_ofValue v, toValues_ofValues r]

theorem toEntries_ofEntries : (kvs : List (Value × Value)) → toEntries (ofEntries kvs) = kvs
  | [] => rfl
  | (k, v) :: r => by simp [ofEntries, toEntries, toValue_ofValue v, toEntries_ofEntries r]

end

/-! ## Opening containers -/

mutual

/-- Puts a container in place of its link, inside one of its parts. -/
def bind (link : Nat) (whole : Linked) : Linked → Linked
  | .again l mapping => if l = link then whole else .again l mapping
  | .list l xs => .list l (bindAll link whole xs)
  | .tuple xs => .tuple (bindAll link whole xs)
  | .dict l kvs => .dict l (bindEntries link whole kvs)
  | .keyed l v => .keyed l (bind link whole v)
  | v => v

def bindAll (link : Nat) (whole : Linked) : List Linked → List Linked
  | [] => []
  | v :: r => bind link whole v :: bindAll link whole r

def bindEntries (link : Nat) (whole : Linked) : Entries → Entries
  | [] => []
  | (k, v) :: r => (k, bind link whole v) :: bindEntries link whole r

end

def entries : Linked → Entries
  | .dict l kvs => if l = 0 then kvs else bindEntries l (.dict l kvs) kvs
  | _ => []

def items : Linked → List Linked
  | .list l xs => if l = 0 then xs else bindAll l (.list l xs) xs
  | _ => []

def field? (name : String) (v : Linked) : Option Linked :=
  Table.find? Value.alike (.str name) v.entries

def elements (v : Linked) : Except Fault (List Value) :=
  match v with
  | .list _ _ => .ok (v.items.map toValue)
  | _ => v.toValue.elements

def truthy (v : Linked) : Bool := v.toValue.truthy

/-! ## Changing containers -/

mutual

/-- Changes the mapping of a link wherever it is met. -/
def alter (link : Nat) (change : Entries → Except Fault Entries) : Linked → Except Fault Linked
  | .list l xs => do return .list l (← alterAll link change xs)
  | .tuple xs => do return .tuple (← alterAll link change xs)
  | .dict l kvs => do
    return .dict l (← if l = link then change kvs else alterEntries link change kvs)
  | .keyed l v => do return .keyed l (← alter link change v)
  | v => .ok v

def alterAll (link : Nat) (change : Entries → Except Fault Entries) :
    List Linked → Except Fault (List Linked)
  | [] => .ok []
  | v :: r => do
    let v ← alter link change v
    return v :: (← alterAll link change r)

def alterEntries (link : Nat) (change : Entries → Except Fault Entries) :
    Entries → Except Fault Entries
  | [] => .ok []
  | (k, v) :: r => do
    let v ← alter link change v
    return (k, v) :: (← alterEntries link change r)

end

end Linked

end Chronoplan
