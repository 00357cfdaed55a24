import Chronoplan.Network.Distance
import Chronoplan.Tick.Amount

/-!
# Simple temporal networks

A network bounds the time between pairs of points. Every constraint is stored in both directions,
and a further constraint on a pair only narrows what is stored; an empty intersection is stored
with its numbers crossed, so that the closure still sees the conflict. The flag `consistent` is
kept cheaply: writing a constraint clears it when a stored bound crosses or a point is bounded
away from itself. The closure (`Network.check`) is the final word.
-/

set_option autoImplicit false

namespace Chronoplan

def originPoint : String := "origin"

def startSuffix : String := "_start"

def endSuffix : String := "_end"

def startPoint (id : String) : String := id ++ startSuffix

def endPoint (id : String) : String := id ++ endSuffix

abbrev Metadata := Table String Value

structure Network where
  /-- In ascending order, each once. -/
  points : List String
  constraints : Constraints
  consistent : Bool
  unit : TimeUnit
  detail : Detail
  metadata : Table String Metadata
  parallel : Bool
  workers : Int

def insertPoint (p : String) : List String → List String
  | [] => [p]
  | q :: r => if p = q then q :: r else if p < q then p :: q :: r else q :: insertPoint p r

def samePair (a b : String × String) : Bool := a == b

def sameText (a b : String) : Bool := a == b

namespace Network

def empty (unit : TimeUnit) (detail : Detail) (parallel : Bool) (workers : Int) : Network :=
  { points := [], constraints := [], consistent := true, unit, detail, metadata := [],
    parallel, workers }

def standard : Network := empty .second .medium false 4

def size (n : Network) : Nat := n.points.length

def addPoint (n : Network) (p : String) : Network := { n with points := insertPoint p n.points }

def get? (n : Network) (a b : String) : Option Bound := n.constraints.find? samePair (a, b)

end Network

def Constraints.narrow (key : String × String) (b : Bound) (c : Constraints) :
    Constraints × Bool :=
  match c.find? samePair key with
  | none => (c.insert samePair key b, true)
  | some old => (c.insert samePair key (old.meet b), !(old.meet b).crossed)

namespace Network

def addBound (n : Network) (a b : String) (bound : Bound) : Network :=
  let (forward, keptForward) := n.constraints.narrow (a, b) bound
  let (both, keptReverse) := Constraints.narrow (b, a) bound.negate forward
  { n with
    points := insertPoint b (insertPoint a n.points)
    constraints := both
    consistent := n.consistent && keptForward && keptReverse
      && (a != b || bound.contains (.int 0)) }

def addConstraint (n : Network) (a b : String) (lo hi : Value) : Except Fault Network := do
  return n.addBound a b (← Bound.ofValues lo hi)

def addConstraints (n : Network) (entries : List (String × String × Value × Value)) :
    Except Fault Network :=
  entries.foldlM (fun n e => n.addConstraint e.1 e.2.1 e.2.2.1 e.2.2.2) n

def check (n : Network) : Except Fault Report :=
  checkConsistency n.points n.constraints n.parallel n.workers

def isConsistent (n : Network) : Except Fault Bool := do return (← n.check).consistent

def derived (n : Network) (a b : String) : Except Fault Bound := do (← n.check).derived a b

def recheck (n : Network) : Except Fault Network := do
  return { n with consistent := ← n.isConsistent }

/-- Drops both directions of a constraint. The flag is taken from the closure, since the dropped
bound may have been the one in conflict. -/
def remove (n : Network) (a b : String) : Except Fault Network :=
  if n.constraints.contains samePair (a, b) && n.constraints.contains samePair (b, a) then
    recheck { n with
      constraints := (n.constraints.erase samePair (a, b)).erase samePair (b, a) }
  else .ok n

def worthStoring (b : Bound) : Except Fault Bool := do
  if (← b.hi.toBinary64).isInfinite then return !(← b.lo.toBinary64).isInfinite
  return true

def derivedConstraints (r : Report) : Except Fault Constraints := do
  let pairs := r.points.flatMap fun a => (r.points.filter (a != ·)).map fun b => (a, b)
  let bounds ← pairs.mapM fun p => do return (p, ← r.derived p.1 p.2)
  bounds.filterM fun e => worthStoring e.2

/-- Stores the derived bounds in place of the given ones. A network in conflict is only flagged. -/
def propagate (n : Network) : Except Fault Network := do
  let report ← n.check
  if report.consistent then
    return { n with constraints := ← derivedConstraints report, consistent := true }
  else
    return { n with consistent := false }

def withMetadata (n : Network) (id : String) (data : Metadata) : Network :=
  let old := (n.metadata.find? sameText id).getD []
  { n with metadata := n.metadata.insert sameText id (old.insertAll sameText data) }

def scaleAll (factor : Rat) (c : Constraints) : Except Fault Constraints :=
  c.mapM fun e => do
    return (e.1, ⟨← scaleBound e.2.lo factor, ← scaleBound e.2.hi factor⟩)

def setDetail (n : Network) (level : Detail) : Except Fault Network := do
  if level = n.detail then return n
  let constraints ← scaleAll (n.detail.factor level) n.constraints
  recheck { n with constraints, detail := level }

def setUnit (n : Network) (unit : TimeUnit) : Except Fault Network := do
  if unit = n.unit then return n
  let constraints ← scaleAll (n.unit.factor unit) n.constraints
  recheck { n with constraints, unit }

end Network

def sameTable {κ ν : Type} (sameKey : κ → κ → Bool) (sameValue : ν → ν → Bool)
    (a b : Table κ ν) : Bool :=
  a.length == b.length && a.all fun e =>
    match b.find? sameKey e.1 with
    | some v => sameValue e.2 v
    | none => false

def Network.same (a b : Network) : Bool :=
  a.points == b.points && sameTable samePair Bound.same a.constraints b.constraints
    && a.consistent == b.consistent && a.unit == b.unit && a.detail == b.detail
    && sameTable sameText (sameTable sameText Value.alike) a.metadata b.metadata
    && a.parallel == b.parallel && a.workers == b.workers

end Chronoplan
