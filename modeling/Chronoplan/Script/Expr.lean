import Chronoplan.State

/-!
# Expressions of domain scripts

Pure expressions over a state and named arguments. Conditions are short-circuiting and always
give a truth value; everything else follows the order and arithmetic of values.
-/

set_option autoImplicit false

namespace Chronoplan

namespace Script

inductive Query
  | get
  | has
  /-- The first entity of the first fact with a given value. -/
  | first
  | count

inductive Operator
  | eq
  | lt
  | le
  | add
  | sub
  | item

inductive Expr
  | const (v : Value)
  | list (es : List Expr)
  | tuple (es : List Expr)
  | var (name : String)
  | query (q : Query) (args : List Expr) (category : Value)
  | binary (op : Operator) (a b : Expr)
  | all (es : List Expr)
  | any (es : List Expr)
  | negated (e : Expr)
  | text (es : List Expr)

abbrev Env := Table String Value

def Operator.apply : Operator → Value → Value → Except Fault Value
  | .eq, a, b => .ok (.bool (a.eq b))
  | .lt, a, b => do return .bool (← a.lt b)
  | .le, a, b => do return .bool (← a.le b)
  | .add, a, b => a.add b
  | .sub, a, b => a.sub b
  | .item, a, b => a.item b

def Query.ask (q : Query) (s : State) (category : Value) : List Value → Except Fault Value
  | [] => .error .illTyped
  | name :: args =>
    match q, args with
    | .get, _ => s.get category name args
    | .has, _ => do return .bool (← s.has category name args)
    | .first, [v] => do
      match ← s.entitiesWhere category name v with
      | [] => return .null
      | [] :: _ => throw .indexOutOfRange
      | (e :: _) :: _ => return e
    | .count, [v] => do return .int (← s.entitiesWhere category name v).length
    | _, _ => .error .illTyped

namespace Expr

mutual

def eval (s : State) (env : Env) : Expr → Except Fault Value
  | .const v => .ok v
  | .list es => do return .list (← evalAll s env es)
  | .tuple es => do return .tuple (← evalAll s env es)
  | .var name => orFault .unknownKey (env.find? (· == ·) name)
  | .query q es category => do q.ask s category (← evalAll s env es)
  | .binary op a b => do
    let x ← eval s env a
    let y ← eval s env b
    op.apply x y
  | .all es => do return .bool (← evalEvery s env es)
  | .any es => do return .bool (← evalSome s env es)
  | .negated e => do return .bool (!(← eval s env e).truthy)
  | .text es => do return .str (String.join (← (← evalAll s env es).mapM Value.spell))

def evalAll (s : State) (env : Env) : List Expr → Except Fault (List Value)
  | [] => .ok []
  | e :: es => do
    let v ← eval s env e
    let vs ← evalAll s env es
    return v :: vs

def evalEvery (s : State) (env : Env) : List Expr → Except Fault Bool
  | [] => .ok true
  | e :: es => do if (← eval s env e).truthy then evalEvery s env es else return false

def evalSome (s : State) (env : Env) : List Expr → Except Fault Bool
  | [] => .ok false
  | e :: es => do if (← eval s env e).truthy then return true else evalSome s env es

end

end Expr

end Script

end Chronoplan
