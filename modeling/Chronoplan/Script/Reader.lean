import Chronoplan.Number.Decimal
import Chronoplan.Script.Rule

/-!
# Reading domain scripts

A script is a tree of mappings and lists. A mapping with one operator key is an expression, a
list is a list of expressions and any other value stands for itself. Functions are registered
kind by kind: commands, tasks, goals, multigoals and actuators.
-/

set_option autoImplicit false

namespace Chronoplan

namespace Script

def categoryOf (kvs : List (Value × Value)) : Value :=
  (Value.lookup (.str "category") kvs).getD defaultCategory

def operation (op : String) (category operand : Value) (whole : Except Fault Expr)
    (parts : Except Fault (List Expr)) : Except Fault Expr :=
  let binary (o : Operator) : Except Fault Expr := do
    match ← parts with
    | [a, b] => return .binary o a b
    | _ => throw .malformed
  match op with
  | "float" =>
    match operand with
    | .str t => do return .const (.float (← orFault .malformed (readBinary64? t)))
    | _ => .error .malformed
  | "tuple" => do return .tuple (← parts)
  | "var" => do return .var (← orFault .malformed operand.text?)
  | "get" => do return .query .get (← parts) category
  | "has" => do return .query .has (← parts) category
  | "where" => do return .query .first (← parts) category
  | "count" => do return .query .count (← parts) category
  | "eq" => binary .eq
  | "lt" => binary .lt
  | "le" => binary .le
  | "add" => binary .add
  | "sub" => binary .sub
  | "at" => binary .item
  | "and" => do return .all (← parts)
  | "or" => do return .any (← parts)
  | "not" => do return .negated (← whole)
  | "str" => do return .text (← parts)
  | _ => .error .malformed

mutual

def readExpr : Value → Except Fault Expr
  | .list xs => do return .list (← readExprs xs)
  | .dict kvs => readOperation (categoryOf kvs) kvs
  | v => .ok (.const v)

def readExprs : List Value → Except Fault (List Expr)
  | [] => .ok []
  | x :: xs => do
    let e ← readExpr x
    let es ← readExprs xs
    return e :: es

def readOperands : Value → Except Fault (List Expr)
  | .list xs => readExprs xs
  | _ => .error .malformed

/-- The operator is the first key other than the category. -/
def readOperation (category : Value) : List (Value × Value) → Except Fault Expr
  | [] => .error .malformed
  | (k, v) :: rest =>
    match k with
    | .str "category" => readOperation category rest
    | .str op => operation op category v (readExpr v) (readOperands v)
    | _ => .error .malformed

end

def field (v : Value) (name : String) : Except Fault Value := orFault .malformed (v.field? name)

def textField (v : Value) (name : String) : Except Fault String := do
  orFault .malformed (← field v name).text?

def listField (v : Value) (name : String) : Except Fault (List Value) :=
  match v.field? name with
  | none => .ok []
  | some (.list xs) => .ok xs
  | some _ => .error .malformed

def exprField (v : Value) (name : String) : Except Fault Expr := do readExpr (← field v name)

def optionalExpr (v : Value) (name : String) : Except Fault Expr :=
  match v.field? name with
  | none => .ok (.const .null)
  | some e => readExpr e

def readEffect (v : Value) : Except Fault Effect := do
  match v with
  | .list (.str "set" :: name :: entities :: value :: rest) => do
    return .set name (← readOperands entities) (← readExpr value)
      (rest.head?.getD defaultCategory)
  | .list (.str "del" :: name :: entities :: rest) => do
    return .del name (← readOperands entities) (rest.head?.getD defaultCategory)
  | _ => throw .malformed

def readGoal : Value → Except Fault (Expr × Expr × Expr)
  | .list [p, e, t] => do return (← readExpr p, ← readExpr e, ← readExpr t)
  | _ => .error .malformed

def argsExpr (v : Value) : Except Fault Expr :=
  match v.field? "args" with
  | none => .ok (.list [])
  | some args => readExpr args

def readTemplate (v : Value) : Except Fault Template := do
  if let some name := v.field? "command" then
    return .command (← readExpr name) (← argsExpr v)
  if let some name := v.field? "task" then
    return .task (← readExpr name) (← argsExpr v)
  if let some predicate := v.field? "unigoal" then
    return .unigoal (← readExpr predicate) (← exprField v "entity") (← exprField v "target")
  if (v.field? "multigoal").isSome then
    let tag ← match v.field? "tag" with
      | none => pure (Expr.const (.str ""))
      | some t => readExpr t
    return .multigoal (← (← listField v "multigoal").mapM readGoal) tag
  if (v.field? "self").isSome then return .self
  if let some place := v.field? "goal" then
    match place with
    | .num (.int i) => return .goal i
    | _ => throw .malformed
  if (v.field? "pending").isSome then return .pending
  return .raw (← exprField v "raw")

def readTiming (v : Value) : Except Fault (Option Timing) := do
  match v.field? "duration" with
  | none => return none
  | some d =>
    let duration ← readExpr d
    let deadline ← optionalExpr v "deadline"
    return some { duration, deadline, release := ← optionalExpr v "release" }

def readReason : Value → Except Fault Expr
  | .null => .ok (.const (.str defaultReason))
  | e => readExpr e

def readRule (v : Value) : Except Fault Rule := do
  if (v.field? "effects").isSome then
    return .effects (← (← listField v "effects").mapM readEffect) (← readTiming v)
  if (v.field? "items").isSome then
    let asTuple := (v.field? "as").elim false fun a => a.eq (.str "tuple")
    return .items (← (← listField v "items").mapM readTemplate) asTuple
  if let some e := v.field? "fail" then return .fail (← readReason e)
  if (v.field? "split").isSome then return .split
  if (v.field? "na").isSome then return .notApplicable
  if let some e := v.field? "raise" then return .raise (← readExpr e)
  return .value (← exprField v "value")

def readClause (v : Value) : Except Fault Clause := do
  let condition ← match v.field? "if" with
    | none => pure none
    | some e => do pure (some (← readExpr e))
  return { condition, rule := ← readRule (← field v "do") }

def readFunction (v : Value) : Except Fault Function := do
  let params ← (← listField v "params").mapM fun p => orFault .malformed p.text?
  return {
    name := ← textField v "fn"
    params
    body := ← (← listField v "body").mapM readClause }

def readNamed (v : Value) (kind : String) : Except Fault (List (String × Function)) := do
  (← listField v kind).mapM fun e => do
    match e with
    | .list [.str name, f] => return (name, ← readFunction f)
    | _ => throw .malformed

def registerAll {α : Type} (add : Domain → String → Callback α → Except Fault Domain)
    (run : Function → State → α → Except Fault Outcome) (d : Domain)
    (functions : List (String × Function)) : Except Fault Domain :=
  functions.zipIdx.foldlM (fun d e =>
    add d e.1.1 { name := e.1.2.name, serial := e.2, run := run e.1.2 }) d

/-- The domain of a script. Goals are read from a category of their own if the script names one. -/
def readDomain (v : Value) : Except Fault Domain := do
  let name ← match v.field? "name" with
    | some n => orFault .malformed n.text?
    | none => pure ""
  let base : Domain := match v.field? "goal_category" with
    | some c => { Domain.empty name with readGoal := readCategory c }
    | none => Domain.empty name
  let call (f : Function) := f.call base
  let d ← registerAll Domain.addCommand call base (← readNamed v "commands")
  let d ← registerAll Domain.addTaskMethod call d (← readNamed v "tasks")
  let d ← registerAll Domain.addUnigoalMethod
    (fun f s goal => f.call base s [goal.1, goal.2]) d (← readNamed v "unigoals")
  let d ← registerAll Domain.addMultigoalMethod (fun f => f.callMultigoal base) d
    (← readNamed v "multigoals")
  registerAll Domain.addActuator call d (← readNamed v "actuators")

end Script

end Chronoplan
