import Chronoplan.Network.Basic
import Chronoplan.Sorting.Galloping

/-!
# Intervals of a network

An interval `id` is the pair of points `id_start` and `id_end`. Writing one bounds its duration
and, where its start or end is given, anchors that point to the origin. Reading takes the lower
bound from the origin as the time of a point. Spans are half open, so an interval that ends at 10
does not overlap one that starts at 10.
-/

set_option autoImplicit false

namespace Chronoplan

/-- What is asked of an interval. Absent parts are null; the duration is a number of ticks, a
tuple of a lower and an upper bound, or a time span; start and end are ticks or moments. -/
structure IntervalSpec where
  id : String
  duration : Value
  start : Value
  finish : Value
  metadata : Value

def Value.toMetadata : Value → Except Fault Metadata
  | .dict kvs =>
    kvs.mapM fun e =>
      match e.1 with
      | .str s => if s = "self" ∨ s = "interval_id" then .error .illTyped else .ok (s, e.2)
      | _ => .error .illTyped
  | _ => .error .illTyped

namespace Network

def ticksOf (n : Network) : Value → Except Fault Value
  | .moment t => do return .int (← momentTicks t Moment.epoch n.unit n.detail)
  | v => .ok v

def durationBounds (parts : List Value) : Except Fault (Value × Value) :=
  match parts with
  | [] => throw .indexOutOfRange
  | first :: _ => do
    if ← first.lt (.int 0) then throw (.negativeDuration (.tuple parts))
    match parts with
    | [lo, hi] => return (lo, hi)
    | _ => throw .malformed

def durationPair (n : Network) (duration : Value) : Except Fault (Value × Value) := do
  let parts ← match duration with
    | .span micros => do
      let ticks ← spanTicks micros n.unit n.detail
      pure [Value.int ticks, Value.int ticks]
    | .tuple xs => pure xs
    | v => pure [v, v]
  durationBounds parts

def specDuration (n : Network) (spec : IntervalSpec) (start finish : Value) :
    Except Fault (Value × Value) :=
  match spec.duration, start, finish with
  | .null, .null, _ => .error (.underspecifiedInterval spec.id)
  | .null, _, .null => .error (.underspecifiedInterval spec.id)
  | .null, s, f => do
    let d ← f.sub s
    return (d, d)
  | d, _, _ => n.durationPair d

def anchor (n : Network) (p : String) : Value → Except Fault Network
  | .null => .ok n
  | v => n.addConstraint originPoint p v v

def described (n : Network) (spec : IntervalSpec) : Except Fault Network :=
  if spec.metadata.truthy then do return n.withMetadata spec.id (← spec.metadata.toMetadata)
  else return n

def addInterval (n : Network) (spec : IntervalSpec) : Except Fault Network := do
  let start ← n.ticksOf spec.start
  let finish ← n.ticksOf spec.finish
  let (lo, hi) ← n.specDuration spec start finish
  let first := startPoint spec.id
  let last := endPoint spec.id
  let n ← ((n.addPoint first).addPoint last).addConstraint first last lo hi
  let n ← n.anchor first start
  let n ← n.anchor last finish
  n.described spec

end Network

structure Interval where
  id : String
  start : Number
  finish : Number
  metadata : Metadata

namespace Interval

def duration (i : Interval) : Except Fault Number := subNumbers i.finish i.start

end Interval

/-- Whether the half-open spans `[a, b)` and `[c, d)` overlap. -/
def overlaps (a b c d : Number) : Bool := a.lt d && c.lt b

def withoutSuffix? (suffix s : String) : Option String :=
  if s.endsWith suffix then
    some (String.ofList (s.toList.take (s.toList.length - suffix.toList.length)))
  else none

namespace Network

def intervalIds (n : Network) : List String :=
  (n.points.filterMap (withoutSuffix? startSuffix)).filter fun id =>
    id != "" && n.points.contains (endPoint id)

def finiteLower (bound : Option Bound) (default : Number) : Except Fault Number :=
  match bound with
  | some b => do return if (← b.lo.toBinary64).isInfinite then default else b.lo
  | none => .ok default

def anchorOf (n : Network) (p : String) (default : Number) : Except Fault Number :=
  finiteLower (n.get? originPoint p) default

def shortest (n : Network) (id : String) : Except Fault Number :=
  finiteLower (n.get? (startPoint id) (endPoint id)) (.int 0)

def readInterval (n : Network) (id : String) : Except Fault Interval := do
  let start ← n.anchorOf (startPoint id) (.int 0)
  let earliest ← addNumbers start (← n.shortest id)
  return {
    id
    start
    finish := ← n.anchorOf (endPoint id) earliest
    metadata := (n.metadata.find? sameText id).getD [] }

def startsBefore (a b : Number × String) : Bool :=
  if a.1.alike b.1 then decide (a.2 < b.2) else a.1.lt b.1

def intervals (n : Network) : Except Fault (List Interval) := do
  let keyed ← n.intervalIds.mapM fun id => do return (← n.anchorOf (startPoint id) (.int 0), id)
  (stableSort startsBefore keyed).mapM fun e => n.readInterval e.2

def overlapping (n : Network) (start finish : Number) : Except Fault (List Interval) := do
  return (← n.intervals).filter fun i => overlaps i.start i.finish start finish

def overlappingValues (n : Network) (start finish : Value) : Except Fault (List Interval) := do
  (← n.intervals).filterM fun i => do
    if ← (Value.num i.start).lt finish then start.lt (.num i.finish) else return false

end Network

end Chronoplan
