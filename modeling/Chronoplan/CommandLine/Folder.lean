import Chronoplan.Text.Split

/-!
# Folders

What a command line sees of the file system: for each path, whether there is a file with a text,
a directory or nothing. A folder in memory is given by the files in it; what lies outside it is
unknown, except that the directories above it exist.
-/

set_option autoImplicit false

namespace Chronoplan

inductive PathState
  | missing
  | directory
  | file (text : String)
  /-- The path goes through a file as if it were a directory. -/
  | throughFile
  | tooLong
  | unnameable

abbrev Folder := String → PathState

namespace Path

def isAbsolute (path : String) : Bool := path.toList.head? == some '/'

/-- The names along a path; a dot names nothing. -/
def names (path : String) : List String :=
  (splitText '/' path).filter fun n => n != "" && n != "."

def normal (path : String) : String :=
  let body := "/".intercalate (names path)
  if isAbsolute path then "/" ++ body else if body.isEmpty then "." else body

def parent (path : String) : String :=
  normal ((if isAbsolute path then "/" else "") ++ "/".intercalate (names path).dropLast)

def lastPart (path : String) : String := ((splitText '/' path).getLast?).getD ""

def withoutSlashes (path : String) : String :=
  String.ofList (path.toList.reverse.dropWhile (· == '/')).reverse

def longestName : Nat := 255

end Path

namespace Folder

def stateAt (files : List (String × String)) (place : List String) : PathState :=
  match files.find? fun f => Path.names f.1 == place with
  | some f => .file f.2
  | none =>
    let holds (f : String × String) : Bool :=
      let ns := Path.names f.1
      place.length < ns.length && place.isPrefixOf ns
    if place.isEmpty || files.any holds then .directory else .missing

def follow (files : List (String × String)) : List String → List String → PathState
  | place, [] => stateAt files place.reverse
  | place, part :: parts =>
    match stateAt files place.reverse with
    | .directory =>
      if part == "" || part == "." then follow files place parts
      else if part == ".." then
        match place with
        | [] => if parts.all fun p => ["", ".", ".."].contains p then .directory else .missing
        | _ :: outer => follow files outer parts
      else if part.utf8ByteSize > Path.longestName then .tooLong
      else follow files (part :: place) parts
    | .file _ => .throughFile
    | s => s

def ofFiles (files : List (String × String)) : Folder := fun path =>
  if path.toList.any fun c => c.toNat = 0 then .unnameable
  else if path.isEmpty then .missing
  else if Path.isAbsolute path then if (Path.names path).isEmpty then .directory else .missing
  else follow files [] (splitText '/' path)

def obstacle? (folder : Folder) (path : String) : Option String :=
  match folder path with
  | .directory => some "Is a directory"
  | .file _ => none
  | .throughFile =>
    match folder (Path.withoutSlashes path) with
    | .file _ => some "Is a directory"
    | _ => some "Not a directory"
  | .tooLong => some "File name too long"
  | .unnameable => none
  | .missing =>
    let last := Path.lastPart path
    if path.isEmpty || last == "." || last == ".." then some "No such file or directory"
    else
      match folder (Path.parent path) with
      | .directory => if last.isEmpty then some "Is a directory" else none
      | .file _ => some "Not a directory"
      | _ => some "No such file or directory"

end Folder

end Chronoplan
