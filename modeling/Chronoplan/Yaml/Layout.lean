import Chronoplan.Number.Shortest
import Chronoplan.Sorting.Galloping
import Chronoplan.Text.Base64
import Chronoplan.Value.Linked
import Chronoplan.Value.Text
import Chronoplan.Yaml.Node

/-!
# Written nodes

How a linked value is laid out as YAML: which nodes it has, with which tags, and which of them get
an anchor. The entries of a mapping are sorted when their keys can be compared. Values of types
without a spelling of their own are written by their parts.
-/

set_option autoImplicit false

namespace Chronoplan

namespace Yaml

/-- A node to be written; the link is that of the value. -/
inductive Layout
  | scalar (link : Nat) (tag text : String)
  | block (tag : String) (lines : List String)
  | sequence (link : Nat) (tag : String) (items : List Layout)
  | mapping (link : Nat) (tag : String) (entries : List (Layout × Layout))
  | reference (link : Nat)

namespace Layout

abbrev coreTag : String → String := NodeType.coreTag

abbrev strTag : String := coreTag "str"

abbrev seqTag : String := coreTag "seq"

abbrev mapTag : String := coreTag "map"

def decimalText (x : Binary64) : String :=
  match x with
  | .nan _ => ".nan"
  | .posInf => ".inf"
  | .negInf => "-.inf"
  | x =>
    let cs := x.text.toList
    if cs.contains '.' then x.text
    else String.ofList (cs.flatMap fun c => if c == 'e' then ['.', '0', 'e'] else [c])

def applied (name : String) (arguments : List Int) : Layout :=
  .sequence 0 (coreTag ("python/object/apply:" ++ name))
    (arguments.map fun n => .scalar 0 (coreTag "int") (toString n))

def null : Layout := .scalar 0 (coreTag "null") "null"

def octets (os : List Nat) : Layout :=
  if os.isEmpty then .scalar 0 (coreTag "binary") "" else .block (coreTag "binary") (Base64.lines os)

def comparable (keys : List Value) : Bool :=
  keys.all fun a => keys.all fun b => (Value.lt a b).toBool

def sortByKey {β : Type} (entries : List (Value × β)) : List (Value × β) :=
  if comparable (entries.map Prod.fst) then
    stableSort (fun a b => (Value.lt a.1 b.1).toOption.getD false) entries
  else entries

mutual

def ofValue : Value → Layout
  | .null => null
  | .num (.bool b) => .scalar 0 (coreTag "bool") (if b then "true" else "false")
  | .num (.int n) => .scalar 0 (coreTag "int") (toString n)
  | .num (.float x) => .scalar 0 (coreTag "float") (decimalText x)
  | .num (.ratio q) => applied "fractions.Fraction" [q.num, q.den]
  | .str s => .scalar 0 strTag s
  | .bytes os => octets os
  | .list xs => .sequence 0 seqTag (ofValues xs)
  | .tuple xs => .sequence 0 (coreTag "python/tuple") (ofValues xs)
  | .set xs =>
    .mapping 0 (coreTag "set") ((sortByKey (ofMembers xs)).map fun e => (e.2, null))
  | .dict entries => .mapping 0 mapTag ((sortByKey (ofEntries entries)).map Prod.snd)
  | .cycle _ => .reference 0
  | .span m => applied "datetime.timedelta" [Span.days m, Span.seconds m, Span.fraction m]
  | .date d => .scalar 0 (coreTag "timestamp") d.text
  | .moment t => .scalar 0 (coreTag "timestamp") t.text

def ofValues : List Value → List Layout
  | [] => []
  | v :: r => ofValue v :: ofValues r

def ofMembers : List Value → List (Value × Layout)
  | [] => []
  | v :: r => (v, ofValue v) :: ofMembers r

def ofEntries : List (Value × Value) → List (Value × Layout × Layout)
  | [] => []
  | (k, v) :: r => (k, ofValue k, ofValue v) :: ofEntries r

end

def withLink (link : Nat) : Layout → Layout
  | .scalar _ tag text => .scalar link tag text
  | .sequence _ tag items => .sequence link tag items
  | .mapping _ tag entries => .mapping link tag entries
  | l => l

mutual

def ofLinked : Linked → Layout
  | .leaf link v => (ofValue v).withLink link
  | .list link xs => .sequence link seqTag (ofLinkeds xs)
  | .tuple xs => .sequence 0 (coreTag "python/tuple") (ofLinkeds xs)
  | .set link xs => (ofValue (.set xs)).withLink link
  | .dict link entries => .mapping link mapTag ((sortByKey (ofParts entries)).map Prod.snd)
  | .again link _ => .reference link
  | .keyed _ v => ofLinked v

def ofLinkeds : List Linked → List Layout
  | [] => []
  | v :: r => ofLinked v :: ofLinkeds r

def ofParts : Linked.Entries → List (Value × Layout × Layout)
  | [] => []
  | (k, v) :: r =>
    let key := match v with
      | .keyed link _ => (ofValue k).withLink link
      | _ => ofValue k
    (k, key, ofLinked v) :: ofParts r

end

/-! ## Anchors -/

structure Sightings where
  once : List Nat
  again : List Nat

abbrev Sighting := StateM Sightings

/-- Meets a link: what it stands for is written the first time, and afterwards a reference. The
link 0 is never met again. -/
def meet (link : Nat) (first : Sighting Layout) : Sighting Layout := do
  if link = 0 then first
  else
    let s ← get
    if s.once.contains link then
      unless s.again.contains link do set { s with again := link :: s.again }
      return .reference link
    else
      set { s with once := link :: s.once }
      first

mutual

def sight : Layout → Sighting Layout
  | .scalar link tag text => meet link (pure (.scalar link tag text))
  | .block tag lines => return .block tag lines
  | .sequence link tag items => meet link do return .sequence link tag (← sightAll items)
  | .mapping link tag entries => meet link do return .mapping link tag (← sightEntries entries)
  | .reference link => meet link (pure (.reference link))

def sightAll : List Layout → Sighting (List Layout)
  | [] => return []
  | l :: r => do
    let l ← sight l
    return l :: (← sightAll r)

def sightEntries : List (Layout × Layout) → Sighting (List (Layout × Layout))
  | [] => return []
  | (k, v) :: r => do
    let k ← sight k
    let v ← sight v
    return (k, v) :: (← sightEntries r)

end

/-- A layout in which every link is written once, and the links that are referred to, in the order
of their numbers. -/
def settle (l : Layout) : Layout × List Nat :=
  let (l, s) := (sight l).run { once := [], again := [] }
  (l, s.again.reverse)

end Layout

end Yaml

end Chronoplan
