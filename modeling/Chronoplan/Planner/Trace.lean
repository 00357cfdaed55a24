import Chronoplan.Value.Json
import Chronoplan.Fault

/-!
# Trace of a planning run

Events in the order in which they happened. A trace that is switched off drops them. When they
happened is not kept, so every time stamp is zero.
-/

set_option autoImplicit false

namespace Chronoplan

structure Event where
  kind : String
  data : Value
  item : Option String
  method : Option String
  depth : Int

namespace Event

def optional : Option String → Value
  | some s => .str s
  | none => .null

def toValue (e : Event) : Value :=
  .dict [(.str "event_type", .str e.kind), (.str "timestamp_ms", .int 0), (.str "data", e.data),
    (.str "item", optional e.item), (.str "method_name", optional e.method),
    (.str "depth", .int e.depth)]

end Event

structure Trace where
  enabled : Bool
  /-- The latest event first. -/
  recorded : List Event

namespace Trace

def new (enabled : Bool) : Trace := { enabled, recorded := [] }

def log (t : Trace) (e : Event) : Trace :=
  if t.enabled then { t with recorded := e :: t.recorded } else t

def events (t : Trace) : List Event := t.recorded.reverse

def ofKind (t : Trace) (kind : String) : List Event := t.events.filter fun e => e.kind == kind

def ofItem (t : Trace) (item : Option String) : List Event :=
  t.events.filter fun e => e.item == item

def clear (t : Trace) : Trace := { t with recorded := [] }

def json (t : Trace) (style : Json.Style) : Except Fault String :=
  Value.json style (.list (t.events.map Event.toValue))

theorem events_log (t : Trace) (e : Event) (h : t.enabled = true) :
    (t.log e).events = t.events ++ [e] := by
  simp [log, events, h]

end Trace

end Chronoplan
