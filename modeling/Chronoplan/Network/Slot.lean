import Chronoplan.Network.Interval

/-!
# Free slots

Spans are merged into busy blocks, and the gaps between the blocks of a network inside a window
are its free slots.
-/

set_option autoImplicit false

namespace Chronoplan

structure Slot where
  start : Number
  finish : Number
deriving DecidableEq

namespace Slot

def length (s : Slot) : Except Fault Number := subNumbers s.finish s.start

def before (a b : Slot) : Bool :=
  if a.start.alike b.start then a.finish.lt b.finish else a.start.lt b.start

def absorb (blocks : List Slot) (s : Slot) : List Slot :=
  match blocks with
  | [] => [s]
  | last :: rest =>
    if s.start.le last.finish then ⟨last.start, last.finish.max s.finish⟩ :: rest
    else s :: last :: rest

/-- Overlapping and touching spans joined into blocks. -/
def merge (spans : List Slot) : List Slot :=
  ((stableSort before spans).foldl absorb []).reverse

def gapsFrom (horizon cursor : Number) : List Slot → List Slot
  | [] => if cursor.lt horizon then [⟨cursor, horizon⟩] else []
  | b :: rest =>
    if b.finish.le cursor then gapsFrom horizon cursor rest
    else if horizon.le b.start then
      if cursor.lt horizon then [⟨cursor, horizon⟩] else []
    else
      let after := gapsFrom horizon (cursor.max b.finish) rest
      if cursor.lt b.start then ⟨cursor, b.start⟩ :: after else after

def gaps (spans : List Slot) (horizon start : Number) : List Slot :=
  gapsFrom horizon start (merge spans)

def fits (duration : Value) (s : Slot) : Except Fault Bool := do
  let length ← s.length
  duration.le (.num length)

end Slot

def firstThat {α : Type} (test : α → Except Fault Bool) : List α → Except Fault (Option α)
  | [] => .ok none
  | a :: r => do if ← test a then return some a else firstThat test r

namespace Network

def spans (n : Network) : Except Fault (List Slot) := do
  return (← n.intervals).map fun i => ⟨i.start, i.finish⟩

def freeSlots (n : Network) (duration : Value) (start finish : Number) :
    Except Fault (List Slot) := do
  if finish.le start then return []
  (Slot.gaps (← n.spans) finish start).filterM (Slot.fits duration)

/-- The first gap from `earliest` on that is long enough; without a horizon there is no limit. -/
def nextSlot (n : Network) (duration : Value) (earliest : Number) (horizon : Option Number) :
    Except Fault (Option Slot) := do
  let finish := horizon.getD .posInf
  if finish.le earliest then return none
  firstThat (Slot.fits duration) (Slot.gaps (← n.spans) finish earliest)

def freeSlotsOf (n : Network) (duration start finish : Value) : Except Fault (List Slot) := do
  match start, finish with
  | .num a, .num b => n.freeSlots duration a b
  | _, _ => if ← finish.le start then return [] else throw .illTyped

def nextSlotOf (n : Network) (duration earliest horizon : Value) :
    Except Fault (Option Slot) := do
  match earliest, horizon with
  | .num a, .null => n.nextSlot duration a none
  | .num a, .num b => n.nextSlot duration a (some b)
  | _, .null => throw .illTyped
  | _, _ => if ← horizon.le earliest then return none else throw .illTyped

end Network

end Chronoplan
