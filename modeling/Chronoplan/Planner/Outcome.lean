import Chronoplan.Item

/-!
# Outcomes of registered functions

A planning domain is made of functions from a state and arguments to an outcome. Commands answer
with a state, possibly after some time, or refuse; methods answer with the work items that refine
an item, or decline. Any answer can come from any function, so the two readings of an outcome,
`declined` and `expansion?`, are separate from the function's kind.
-/

set_option autoImplicit false

namespace Chronoplan

inductive Entry
  | item (w : WorkItem)
  | other (v : Value)

namespace Entry

def text : Entry → String
  | .item w => w.text
  | .other v => v.text

def isWritable : Entry → Bool
  | .item w => w.isWritable
  | .other v => v.isWritable

end Entry

structure Lasting where
  state : State
  duration : Value
  deadline : Value
  release : Value

inductive Outcome
  | notApplicable
  | refused (reason : Value)
  | state (s : State)
  | lasting (e : Lasting)
  | items (entries : List Entry) (asTuple : Bool)
  | value (v : Value)

def defaultReason : String := "precondition failed"

namespace Outcome

/-- Nothing, false and "not applicable" all mean that the function declines. -/
def declined : Outcome → Bool
  | .notApplicable => true
  | .value .null => true
  | .value (.num (.bool false)) => true
  | _ => false

def expansion? : Outcome → Option (List Entry)
  | .items entries _ => some entries
  | .value (.list xs) => some (xs.map .other)
  | .value (.tuple xs) => some (xs.map .other)
  | _ => none

def kindName : Outcome → String
  | .notApplicable => "_NotApplicable"
  | .refused _ => "CommandFailure"
  | .state _ => "State"
  | .lasting _ => "DurativeEffect"
  | .items _ asTuple => if asTuple then "tuple" else "list"
  | .value v => v.kindName

end Outcome

def durationParts : Value → List Value
  | .tuple xs => xs
  | v => [v, v]

end Chronoplan
