import Chronoplan.Item
import Chronoplan.Network.Interval
import Chronoplan.State
import Chronoplan.Value.Linked

/-!
# Problem and network files

A problem file has facts, default values and work items; a network file has a time unit, a level
of detail, constraints and intervals. Every part may be left out.
-/

set_option autoImplicit false

namespace Chronoplan

namespace Value

def partOr (v : Value) (name : String) (default : Value) : Value := (v.field? name).getD default

end Value

namespace Linked

def part (v : Linked) (name : String) : Except Fault (List Value) :=
  match v.field? name with
  | none => .ok []
  | some p => p.elements

def partOr (v : Linked) (name : String) (default : Value) : Value :=
  ((v.field? name).map toValue).getD default

end Linked

structure Problem where
  state : State
  items : List WorkItem

namespace Problem

def addFact (table : Table FactKey Value) (fact : Value) : Except Fault (Table FactKey Value) := do
  State.addFact false table (.tuple (← fact.elements))

def read (v : Linked) : Except Fault Problem := do
  let facts ← (← v.part "facts").foldlM addFact []
  let defaults ← State.defaultsOf (v.partOr "defaults" .null)
  let state : State := { facts, defaults, acceptsTuples := false }
  return { state, items := ← (← v.part "items").mapM WorkItem.ofValue }

end Problem

namespace Network

/-- A bound as it is written; null stands for the given one. -/
def boundOr (default : Number) : Value → Value
  | .null => .num default
  | v => v

def addWritten (n : Network) (entry : Value) : Except Fault Network := do
  match ← entry.elements with
  | [a, b, lo, hi] =>
    let p ← a.spell
    let q ← b.spell
    n.addConstraint p q (boundOr .negInf lo) (boundOr .posInf hi)
  | _ => throw .malformed

def specOf (entry : Value) : Except Fault IntervalSpec := do
  match entry with
  | .dict _ =>
    let duration := match entry.partOr "duration" .null with
      | .list xs => .tuple xs
      | d => d
    return {
      id := ← (← orFault .unknownKey (entry.field? "id")).spell
      duration
      start := entry.partOr "start" .null
      finish := entry.partOr "end" .null
      metadata := entry.partOr "metadata" .null }
  | _ => throw .unknownAttribute

def read (v : Linked) : Except Fault Network := do
  let unit ← TimeUnit.ofValue (v.partOr "time_unit" (.str "second"))
  let detail ← Detail.ofValue (v.partOr "lod_level" (.str "medium"))
  let n ← (← v.part "constraints").foldlM addWritten (Network.empty unit detail false 4)
  (← v.part "intervals").foldlM (fun n e => do n.addInterval (← specOf e)) n

end Network

end Chronoplan
