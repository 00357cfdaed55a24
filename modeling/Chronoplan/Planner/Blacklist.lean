import Chronoplan.Item

/-!
# Blacklist

The commands that failed when they were carried out and may not be planned again. Commands that
are equal as values are one entry. Enumeration is in the order of the written entries.
-/

set_option autoImplicit false

namespace Chronoplan

abbrev Blacklist := List Call

namespace Blacklist

def checked (c : Call) : Except Fault Call :=
  if Value.areKeys (c.name :: c.args) then .ok c else .error .illTyped

def contains (b : Blacklist) (c : Call) : Except Fault Bool := do
  let c ← checked c
  return b.any fun e => e.same c

def add (b : Blacklist) (c : Call) : Except Fault Blacklist := do
  return if ← b.contains c then b else b ++ [c]

def written (c : Call) : String := (Value.tuple [c.name, .tuple c.args]).display

def enumerate (b : Blacklist) : List Call :=
  insertionSort (fun x y => decide (written x < written y)) b

end Blacklist

end Chronoplan
