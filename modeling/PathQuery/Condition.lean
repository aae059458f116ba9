import PathQuery.Criteria.Compile

/-! Conditions: criteria joined by conjunction, disjunction and negation. Compiling a
condition goes through it from left to right with one set of joins, a copy of the set that
the whole condition is to have. -/

namespace PathQuery

inductive Condition
  | leaf (criteria : Criteria)
  | and (left right : Condition)
  | or (left right : Condition)
  | not (inner : Condition)
  deriving Repr, Inhabited

namespace Condition

/-- The same tree over the same criteria. -/
def same : Condition → Condition → Bool
  | .leaf a, .leaf b => a.same b
  | .and a b, .and a' b' => same a a' && same b b'
  | .or a b, .or a' b' => same a a' && same b b'
  | .not a, .not a' => same a a'
  | _, _ => false

/-- A condition negated a number of times. -/
def negated : Nat → Condition → Condition
  | 0, c => c
  | n + 1, c => .not (negated n c)

/-- The expression of a tree. A leaf of several entries asks for all of them; one without
entries asks for nothing and is refused. -/
def evaluate (schema : Schema) (root : Entity) : Condition → Compiling Expr
  | .leaf criteria => do
    let exprs ← criteria.compileM schema root
    match Expr.allOf exprs with
    | some expr => return expr
    | none => throw .emptyCriteria
  | .and left right => do
    let l ← evaluate schema root left
    let r ← evaluate schema root right
    return .and [l, r]
  | .or left right => do
    let l ← evaluate schema root left
    let r ← evaluate schema root right
    return .or [l, r]
  | .not inner => do
    let e ← evaluate schema root inner
    return .not e

def compileM (schema : Schema) (root : Entity) (c : Condition) : Compiling Expr :=
  staged (c.evaluate schema root)

/-- The expression with the joins it needs. -/
def compile (schema : Schema) (root : Entity) (joins : JoinSet) (c : Condition) :
    Except CriteriaError (Expr × JoinSet) :=
  outcome (c.compileM schema root) joins

/-- The leaves from left to right. -/
def leaves : Condition → List Criteria
  | .leaf criteria => [criteria]
  | .and left right => leaves left ++ leaves right
  | .or left right => leaves left ++ leaves right
  | .not inner => leaves inner

end Condition

end PathQuery
