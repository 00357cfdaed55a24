import Chronoplan.Value.Text

/-!
# Faults

Everything that stops an operation, by cause. The first group has a text of its own, given by
`message` unless it shows a value that cannot be written; the last group are requests that make no
sense for the values they meet, such as comparing a string with a number, and have none.
-/

set_option autoImplicit false

namespace Chronoplan

inductive Misfit
  | notMapping
  | notInteger
  | unreadableInteger
  | fractional
  | notFinite
  | outOfSize
  | tooSmall
  | notTruth
  | unreadableTruth
  | unknownName
deriving DecidableEq

namespace Misfit

def code : Misfit → String
  | .notMapping => "model_type"
  | .notInteger => "int_type"
  | .unreadableInteger => "int_parsing"
  | .fractional => "int_from_float"
  | .notFinite => "finite_number"
  | .outOfSize => "int_parsing_size"
  | .tooSmall => "greater_than_equal"
  | .notTruth => "bool_type"
  | .unreadableTruth => "bool_parsing"
  | .unknownName => "enum"

end Misfit

/-- What is wrong with one field of a settings section, or with the section when the path is
empty. -/
structure FieldIssue where
  path : List String
  misfit : Misfit
deriving DecidableEq

inductive Fault
  | unknownUnit (v : Value)
  | unknownLevel (v : Value)
  | invalidBounds (pair : Value)
  | negativeDuration (bound : Value)
  | underspecifiedInterval (id : String)
  | factShape (fact : Value)
  | factValue (v : Value)
  | itemShape (v : Value)
  | argumentShape (item : Value)
  | missingGoalParts (goal : Value) (parts : List String)
  | goalShape (entry : Value)
  | unrecognizedItem (item : Value)
  | duplicateCommand (command domain : String)
  | duplicateActuator (command domain : String)
  | duplicateMethod (method kind name : String)
  | noCommands (domain : String)
  | orphanActuators (domain : String) (names : List String)
  | methodResult (method kind : String)
  | commandResult (command : Value) (kind : String)
  | raised (text : String)
  | unreadableSettings (path : String)
  | settingsShape (path : String)
  | unwritableSettings (path : String)
  | invalidSettings (sectionName model : String) (issues : List FieldIssue)
  | notYaml
  | illTyped
  | unknownKey
  | unknownAttribute
  | indexOutOfRange
  | malformed
  | tooLarge
  | tooPrecise
  | exponentTooLarge
  | divisionByZero
  | unreachablePath
  | endless

namespace Fault

def message : Fault → Option String
  | .unknownUnit v => do return (← v.shown?) ++ " is not a valid TimeUnit"
  | .unknownLevel v => do return (← v.shown?) ++ " is not a valid LODLevel"
  | .invalidBounds p => do return "Invalid constraint bounds: " ++ (← p.shown?)
  | .negativeDuration b => do
    return "Interval duration must be non-negative, got " ++ (← b.shown?)
  | .underspecifiedInterval id =>
    some ("Interval " ++ Display.quote id ++ " needs a duration or both start and end")
  | .factShape f => do return "Fact must have 3 or 4 fields, got " ++ (← f.shown?)
  | .factValue v => do
    return "Unsupported fact value type " ++ v.kindName ++ ": " ++ (← v.shown?)
  | .itemShape v => do return "Work item must be a mapping, got " ++ (← v.shown?)
  | .argumentShape d => do return "'args' must be a list in " ++ (← d.shown?)
  | .missingGoalParts g ps => do
    return "Unigoal " ++ (← g.shown?) ++ " is missing " ++ ", ".intercalate ps
  | .goalShape e => do
    return "Multigoal entries must be [predicate, entity, target], got " ++ (← e.shown?)
  | .unrecognizedItem d => do return "Unrecognized work item: " ++ (← d.shown?)
  | .duplicateCommand c d =>
    some ("Command " ++ Display.quote c ++ " is already registered in " ++ Display.quote d)
  | .duplicateActuator c d =>
    some ("Actuator " ++ Display.quote c ++ " is already registered in " ++ Display.quote d)
  | .duplicateMethod m kind n =>
    some (Display.quote m ++ " is already a " ++ kind ++ " method for " ++ Display.quote n)
  | .noCommands d => some ("Domain " ++ Display.quote d ++ " has no commands")
  | .orphanActuators d ns =>
    some ("Domain " ++ Display.quote d ++ " has actuators without commands: "
      ++ ", ".intercalate ns)
  | .methodResult m kind =>
    some ("Method " ++ m ++ " returned " ++ kind
      ++ ", expected a list of work items or NOT_APPLICABLE")
  | .commandResult c kind =>
    some ("Command " ++ c.display ++ " returned " ++ kind
      ++ ", expected State, DurativeEffect or CommandFailure")
  | .raised t => some t
  | .unreadableSettings p => some ("Failed to load config from " ++ p)
  | .settingsShape p => some ("Config file " ++ p ++ " must contain a mapping")
  | .unwritableSettings p => some ("Failed to save config to " ++ p)
  | .invalidSettings s model issues =>
    some ("Invalid '" ++ s ++ "' configuration: " ++ toString issues.length ++ " validation error"
      ++ (if issues.length = 1 then "" else "s") ++ " for " ++ model)
  | .notYaml => none
  | .illTyped => none
  | .unknownKey => none
  | .unknownAttribute => none
  | .indexOutOfRange => none
  | .malformed => none
  | .tooLarge => none
  | .tooPrecise => none
  | .exponentTooLarge => none
  | .divisionByZero => none
  | .unreachablePath => none
  | .endless => none

end Fault

def orFault {α : Type} (fault : Fault) : Option α → Except Fault α
  | some a => .ok a
  | none => .error fault

def Value.spell (v : Value) : Except Fault String :=
  if v.isWritable then .ok v.text else .error .malformed

/-- Stops before a text with an integer of too many digits. -/
def requireWritable (writable : Bool) : Except Fault Unit :=
  if writable then .ok () else .error .malformed

def Number.toBinary64 (n : Number) : Except Fault Binary64 := orFault .tooLarge n.toBinary64?

end Chronoplan
