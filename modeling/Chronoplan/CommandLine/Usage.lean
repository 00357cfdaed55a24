import Chronoplan.CommandLine.Folder
import Chronoplan.Number.Decimal
import Chronoplan.Text.Quoted
import Chronoplan.Text.Similar

/-!
# Options on the command line

An option has a long and possibly a short name and takes a fixed number of values. Short names
may be joined, and a value may be joined to its option. Values are checked in the order in which
the options first occur, then the missing options in the order of declaration, and of several
occurrences the last one counts.
-/

set_option autoImplicit false

namespace Chronoplan

namespace CommandLine

inductive ValueIssue
  | noFile (path : String)
  | isDirectory (path : String)
  | notNumber (text : String)

def ValueIssue.message : ValueIssue → String
  | .noFile p => "File " ++ Display.quote p ++ " does not exist."
  | .isDirectory p => "File " ++ Display.quote p ++ " is a directory."
  | .notNumber t => Display.quote t ++ " is not a valid float."

inductive UsageError
  | noCommand
  | unknownCommand (name : String)
  | unknownOption (name : String) (similar : List String)
  | missingOption (names : List String)
  | missingValues (option : String) (count : Nat)
  | unexpectedValue (option : String)
  | invalidValue (names : List String) (issue : ValueIssue)
  | unnameablePath
  | extraArguments (arguments : List String)

namespace UsageError

def hint (names : List String) : String := " / ".intercalate (names.map Display.quote)

def similarText : List String → String
  | [] => ""
  | [s] => " Did you mean " ++ s ++ "?"
  | ss => " (Possible options: " ++ ", ".intercalate (insertionSort (· < ·) ss) ++ ")"

def message : UsageError → String
  | .noCommand => "Missing command."
  | .unknownCommand n => "No such command " ++ Display.quote n ++ "."
  | .unknownOption n similar => "No such option: " ++ n ++ similarText similar
  | .missingOption ns => "Missing option " ++ hint ns ++ "."
  | .missingValues o 1 => "Option " ++ Display.quote o ++ " requires an argument."
  | .missingValues o n =>
    "Option " ++ Display.quote o ++ " requires " ++ toString n ++ " arguments."
  | .unexpectedValue o => "Option " ++ Display.quote o ++ " does not take a value."
  | .invalidValue ns i => "Invalid value for " ++ hint ns ++ ": " ++ i.message
  | .unnameablePath => "Invalid path."
  | .extraArguments as =>
    "Got unexpected extra argument" ++ (if as.length = 1 then "" else "s") ++ " ("
      ++ " ".intercalate as ++ ")"

end UsageError

inductive OptionKind
  | flag
  | text
  | file (existing : Bool)
  | numbers (count : Nat)

inductive Argument
  | flag
  | text (s : String)
  | numbers (xs : List Binary64)

structure OptionSpec where
  long : String
  short : Option String
  kind : OptionKind
  required : Bool

namespace OptionSpec

def names (o : OptionSpec) : List String := o.long :: o.short.toList

def arity (o : OptionSpec) : Nat :=
  match o.kind with
  | .flag => 0
  | .text => 1
  | .file _ => 1
  | .numbers n => n

def readNumber (s : String) : Except ValueIssue Binary64 :=
  match readBinary64? s with
  | some x => .ok x
  | none => .error (.notNumber s)

def readFile (folder : Folder) (o : OptionSpec) (existing : Bool) (path : String) :
    Except UsageError Argument :=
  match folder path with
  | .directory => .error (.invalidValue o.names (.isDirectory path))
  | .file _ => .ok (.text path)
  | .unnameable => .error .unnameablePath
  | _ => if existing then .error (.invalidValue o.names (.noFile path)) else .ok (.text path)

def readValues (folder : Folder) (o : OptionSpec) (values : List String) :
    Except UsageError Argument :=
  match o.kind, values with
  | .flag, _ => .ok .flag
  | .file existing, path :: _ => readFile folder o existing path
  | .numbers _, vs =>
    match vs.mapM readNumber with
    | .ok xs => .ok (.numbers xs)
    | .error i => .error (.invalidValue o.names i)
  | _, vs => .ok (.text (vs.headD ""))

end OptionSpec

/-- The option that asks for help. It is heeded before any other option is checked. -/
def helpOption : OptionSpec :=
  { long := "--help", short := none, kind := .flag, required := false }

abbrev Occurrence := OptionSpec × List String

namespace Usage

def startsOption (arg : String) : Bool :=
  match arg.toList with
  | '-' :: _ :: _ => true
  | _ => false

def byLong? (specs : List OptionSpec) (name : String) : Option OptionSpec :=
  specs.find? fun o => o.long == name

def byShort? (specs : List OptionSpec) (name : String) : Option OptionSpec :=
  specs.find? fun o => o.short == some name

def takeValues (o : OptionSpec) (written : String) (rest : List String) :
    Except UsageError (Occurrence × List String) :=
  if rest.length < o.arity then .error (.missingValues written o.arity)
  else .ok ((o, rest.take o.arity), rest.drop o.arity)

def splitValue (arg : String) : String × Option String :=
  let cs := arg.toList
  let name := cs.takeWhile (· != '=')
  (String.ofList name,
    if name.length < cs.length then some (String.ofList (cs.drop (name.length + 1))) else none)

/-- Joined short options; the rest of the word is the value of the first one that takes any. -/
def shortOptions (specs : List OptionSpec) :
    List Char → List String → Except UsageError (List Occurrence × List String)
  | [], rest => .ok ([], rest)
  | c :: cs, rest => do
    let name := String.ofList ['-', c]
    match byShort? specs name with
    | none => throw (.unknownOption name [])
    | some o =>
      if o.arity = 0 then
        let (more, rest) ← shortOptions specs cs rest
        return ((o, []) :: more, rest)
      else
        let rest := if cs.isEmpty then rest else String.ofList cs :: rest
        let (occurrence, rest) ← takeValues o name rest
        return ([occurrence], rest)

def wordOptions (specs : List OptionSpec) (arg : String) (rest : List String) :
    Except UsageError (List Occurrence × List String) := do
  let (name, joined) := splitValue arg
  match byLong? specs name with
  | some o =>
    match joined with
    | some v =>
      if o.arity = 0 then throw (.unexpectedValue name)
      let (occurrence, rest) ← takeValues o name (v :: rest)
      return ([occurrence], rest)
    | none =>
      let (occurrence, rest) ← takeValues o name rest
      return ([occurrence], rest)
  | none =>
    if ['-', '-'].isPrefixOf arg.toList then
      throw (.unknownOption name (Similar.closeWords name (specs.map OptionSpec.long)))
    else shortOptions specs (arg.toList.drop 1) rest

/-- All options and the arguments that belong to none. Every round takes an argument away; the
bound allows for the value that a word may bring back. -/
def scan (specs : List OptionSpec) :
    Nat → List String → Except UsageError (List Occurrence × List String)
  | 0, rest => .ok ([], rest)
  | _ + 1, [] => .ok ([], [])
  | n + 1, arg :: rest => do
    if arg == "--" then return ([], rest)
    if startsOption arg then
      let (found, rest) ← wordOptions specs arg rest
      let (more, others) ← scan specs n rest
      return (found ++ more, others)
    else
      let (more, others) ← scan specs n rest
      return (more, arg :: others)

def scanFront (specs : List OptionSpec) :
    Nat → List String → Except UsageError (List Occurrence × List String)
  | 0, rest => .ok ([], rest)
  | _ + 1, [] => .ok ([], [])
  | n + 1, arg :: rest => do
    if arg == "--" then return ([], rest)
    if startsOption arg then
      let (found, rest) ← wordOptions specs arg rest
      let (more, others) ← scanFront specs n rest
      return (found ++ more, others)
    else return ([], arg :: rest)

abbrev Values := List (String × Argument)

def checkOrder (specs : List OptionSpec) (occurrences : List Occurrence) : List OptionSpec :=
  let occurring := (occurrences.map fun e => e.1.long).eraseDups
  occurring.filterMap (byLong? specs) ++ specs.filter fun o => !occurring.contains o.long

def valuesOf? (o : OptionSpec) (occurrences : List Occurrence) : Option (List String) :=
  ((occurrences.filter fun e => e.1.long == o.long).getLast?).map Prod.snd

def checkOption (folder : Folder) (occurrences : List Occurrence) (o : OptionSpec) :
    Except UsageError Values :=
  match valuesOf? o occurrences with
  | none => if o.required then .error (.missingOption o.names) else .ok []
  | some vs => do return [(o.long, ← o.readValues folder vs)]

/-- The values of the options of a command, none when help is asked for. -/
def read (folder : Folder) (specs : List OptionSpec) (args : List String) :
    Except UsageError (Option Values) := do
  let (occurrences, others) ← scan specs (args.length + 1) args
  if occurrences.any fun e => e.1.long == helpOption.long then return none
  let values ← (checkOrder specs occurrences).mapM (checkOption folder occurrences)
  unless others.isEmpty do throw (.extraArguments others)
  return some values.flatten

namespace Values

def find? (vs : Values) (name : String) : Option Argument :=
  (List.find? (fun (e : String × Argument) => e.1 == name) vs).map Prod.snd

def has (vs : Values) (name : String) : Bool := (vs.find? name).isSome

def text? (vs : Values) (name : String) : Option String :=
  match vs.find? name with
  | some (.text s) => some s
  | _ => none

def numbers? (vs : Values) (name : String) : Option (List Binary64) :=
  match vs.find? name with
  | some (.numbers xs) => some xs
  | _ => none

end Values

end Usage

end CommandLine

end Chronoplan
