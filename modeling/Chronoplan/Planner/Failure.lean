import Chronoplan.Item

/-!
# Planning failures

Why a branch of the search, or the whole search, came to nothing. A branch failure sends the
search back to the latest choice; the last three kinds end it.
-/

set_option autoImplicit false

namespace Chronoplan

inductive FailureKind
  | methodNotApplicable
  | commandPrecondition
  | inconsistentNetwork
  | goalNotAchieved
  | depthExceeded
  | blacklisted
  | searchExhausted
  | unknownMethod
  | timeout
deriving DecidableEq

namespace FailureKind

def all : List FailureKind :=
  [.methodNotApplicable, .commandPrecondition, .inconsistentNetwork, .goalNotAchieved,
    .depthExceeded, .blacklisted, .searchExhausted, .unknownMethod, .timeout]

def name : FailureKind → String
  | .methodNotApplicable => "METHOD_NOT_APPLICABLE"
  | .commandPrecondition => "COMMAND_PRECONDITION"
  | .inconsistentNetwork => "INCONSISTENT_NETWORK"
  | .goalNotAchieved => "GOAL_NOT_ACHIEVED"
  | .depthExceeded => "DEPTH_EXCEEDED"
  | .blacklisted => "BLACKLISTED"
  | .searchExhausted => "SEARCH_EXHAUSTED"
  | .unknownMethod => "UNKNOWN_METHOD"
  | .timeout => "TIMEOUT"

def ordinal (k : FailureKind) : Nat := all.idxOf k + 1

def recoverable : FailureKind → Bool
  | .searchExhausted => false
  | .unknownMethod => false
  | .timeout => false
  | _ => true

def ofName? (s : String) : Option FailureKind := all.find? fun k => k.name == s

end FailureKind

structure Reason where
  kind : FailureKind
  message : String
  item : Option WorkItem

/-- A failure and what it was caused by, the immediate cause first. -/
structure Failure where
  reason : Reason
  causes : List Reason

namespace Reason

def toValue (r : Reason) (cause : Value) : Except Fault Value := do
  let item ← match r.item with
    | some w => do
      requireWritable w.isWritable
      pure (.str w.text)
    | none => pure .null
  return .dict [(.str "kind", .str r.kind.name), (.str "message", .str r.message),
    (.str "item", item), (.str "cause", cause)]

end Reason

def Failure.toValue (f : Failure) : Except Fault Value := do
  f.reason.toValue (← f.causes.foldrM Reason.toValue .null)

end Chronoplan
