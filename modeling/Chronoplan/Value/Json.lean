import Chronoplan.Fault

/-!
# JSON text of a value

Lists and tuples become arrays and mappings become objects whose keys are texts: a text key
stands for itself and a number, a truth value or null for its JSON spelling. A value that JSON
cannot hold is written as a string. Writing stops at a key of any other kind, which is ill-typed,
at a number of too many digits, and where a list or mapping lies in itself; what stands before that
place has been written by then.
-/

set_option autoImplicit false

namespace Chronoplan

namespace Json

inductive Style
  | line
  | indented (step : String)

def Style.newline : Style → Nat → String
  | .line, _ => ""
  | .indented step, depth => "\n" ++ String.join (List.replicate depth step)

def Style.separator : Style → Nat → String
  | .line, _ => ", "
  | s, depth => "," ++ s.newline depth

def floatText : Binary64 → String
  | .nan _ => "NaN"
  | .posInf => "Infinity"
  | .negInf => "-Infinity"
  | x => x.text

def numberText : Number → String
  | .bool b => if b then "true" else "false"
  | .int n => toString n
  | .float x => floatText x
  | .ratio q => Strict.quote (Number.ratio q).text

def keyText : Value → Except Fault String
  | .str s => .ok s
  | .null => .ok "null"
  | .num (.ratio _) => .error .illTyped
  | .num n => if n.isWritable then .ok (numberText n) else .error .malformed
  | _ => .error .illTyped

/-- A text as far as it could be written, and what stopped the writing. -/
structure Written where
  text : String
  fault : Option Fault

namespace Written

def ofText (text : String) : Written := { text, fault := none }

def stop (fault : Fault) : Written := { text := "", fault := some fault }

def append (a b : Written) : Written :=
  if a.fault.isNone then { text := a.text ++ b.text, fault := b.fault } else a

instance : Append Written := ⟨append⟩

end Written

/-- An item of a list and what leads to it. An integer is written in one piece with that. -/
def Written.item (lead : String) (x : Value) (written : Written) : Written :=
  match x with
  | .num (.int n) => if (Number.int n).isWritable then .ofText lead ++ written else written
  | _ => .ofText lead ++ written

def Style.opening (s : Style) (depth : Nat) (bracket : String) : String :=
  bracket ++ s.newline (depth + 1)

def Style.closing (s : Style) (depth : Nat) (bracket : String) : Written :=
  .ofText (s.newline depth ++ bracket)

end Json

namespace Value

open Json

def writeKey (k : Value) : Written :=
  match keyText k with
  | .error f => .stop f
  | .ok t => .ofText (Strict.quote t ++ ": ")

mutual

def write (s : Style) (depth : Nat) : Value → Written
  | .null => .ofText "null"
  | .num n => if n.isWritable then .ofText (numberText n) else .stop .malformed
  | .str t => .ofText (Strict.quote t)
  | .list [] => .ofText "[]"
  | .list (x :: xs) =>
    .item (s.opening depth "[") x (write s (depth + 1) x) ++ writeAll s (depth + 1) xs
      ++ s.closing depth "]"
  | .tuple [] => .ofText "[]"
  | .tuple (x :: xs) =>
    .item (s.opening depth "[") x (write s (depth + 1) x) ++ writeAll s (depth + 1) xs
      ++ s.closing depth "]"
  | .dict [] => .ofText "\x7b\x7d"
  | .dict ((k, v) :: r) =>
    .ofText (s.opening depth "\x7b") ++ writeKey k ++ write s (depth + 1) v
      ++ writeEntries s (depth + 1) r ++ s.closing depth "\x7d"
  | .cycle _ => .stop .malformed
  | v => if v.isWritable then .ofText (Strict.quote v.text) else .stop .malformed

def writeAll (s : Style) (depth : Nat) : List Value → Written
  | [] => .ofText ""
  | x :: xs => .item (s.separator depth) x (write s depth x) ++ writeAll s depth xs

def writeEntries (s : Style) (depth : Nat) : List (Value × Value) → Written
  | [] => .ofText ""
  | (k, v) :: r =>
    match keyText k with
    | .error f => .stop f
    | .ok _ =>
      .ofText (s.separator depth) ++ writeKey k ++ write s depth v ++ writeEntries s depth r

end

def json (s : Style) (v : Value) : Except Fault String :=
  let written := v.write s 0
  match written.fault with
  | none => .ok written.text
  | some f => .error f

end Value

end Chronoplan
