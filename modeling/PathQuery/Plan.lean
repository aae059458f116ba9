import PathQuery.Condition
import PathQuery.Expr.Text

/-! Plans: the root entity of a query, the joins it needs, and the clauses that a result has
to satisfy together. A plan grows in place, by conditions, by criteria or by a whole search,
and stays as it was when one of them does not compile. -/

namespace PathQuery

/-- What a caller asks for: conditions, then flat criteria. -/
structure Search where
  conditions : List Condition
  criteria : Criteria
  deriving Repr, Inhabited

namespace Search

def empty : Search := ⟨[], ∅⟩

instance : EmptyCollection Search := ⟨empty⟩

end Search

structure Plan where
  root : Entity
  joins : JoinSet
  filters : List Expr
  deriving Repr

/-- Works on a plan. -/
abbrev Planning := EStateM CriteriaError Plan

namespace Plan

/-- All rows of the root entity. -/
def all (root : Entity) : Plan := ⟨root, ∅, []⟩

/-- One more clause, as it is. -/
def push (p : Plan) (expr : Expr) : Plan := { p with filters := p.filters ++ [expr] }

/-- Works on the joins of a plan. -/
def onJoins {α : Type} (x : Compiling α) : Planning α := fun p =>
  match x p.joins with
  | .ok a joins => .ok a { p with joins := joins }
  | .error e joins => .error e { p with joins := joins }

/-- Compiles for the root entity with the joins of the plan, and adds the clauses that come
of it. -/
def grow {α : Type} (compile : Entity → Compiling α) (clauses : α → List Expr) :
    Planning Unit := do
  let a ← onJoins (compile (← get).root)
  modify fun p => { p with filters := p.filters ++ clauses a }

/-- One more clause for a condition. -/
def applyM (schema : Schema) (condition : Condition) : Planning Unit :=
  grow (condition.compileM schema) fun expr => [expr]

/-- One more clause for every entry. -/
def applyCriteriaM (schema : Schema) (criteria : Criteria) : Planning Unit :=
  grow (criteria.compileM schema) id

/-- The conditions of a search in order, then its criteria. -/
def applySearchM (schema : Schema) (search : Search) : Planning Unit := staged do
  search.conditions.forM (applyM schema)
  applyCriteriaM schema search.criteria

/-- The clauses together; nothing when every row is wanted. -/
def predicate? (p : Plan) : Option Expr := Expr.allOf p.filters

def text (p : Plan) : String :=
  let table := p.root.table
  let joins := String.join (p.joins.joins.map fun j => " " ++ j.text)
  let filter := match p.predicate? with
    | some e => " WHERE " ++ e.text
    | none => ""
  s!"SELECT {table}.* FROM {table}" ++ joins ++ filter

end Plan

/-- One step in the making of a plan. -/
inductive Refinement
  | condition (condition : Condition)
  | criteria (criteria : Criteria)
  | search (search : Search)
  | clause (expr : Expr)
  deriving Repr

namespace Plan

def refineM (schema : Schema) : Refinement → Planning Unit
  | .condition c => applyM schema c
  | .criteria c => applyCriteriaM schema c
  | .search s => applySearchM schema s
  | .clause e => modify (push · e)

/-- The plan that comes of a step. -/
def refine (schema : Schema) (p : Plan) (step : Refinement) : Except CriteriaError Plan :=
  (outcome (refineM schema step) p).map (·.2)

/-- The plan after a step, also one that fails. -/
def advance (schema : Schema) (p : Plan) (step : Refinement) : Plan :=
  stateAfter (refineM schema step) p

/-- Takes steps in order, up to the first that fails. -/
def refineAll (schema : Schema) (p : Plan) (steps : List Refinement) : Except CriteriaError Plan :=
  steps.foldlM (refine schema) p

/-- The plan of a search. -/
def build (schema : Schema) (root : Entity) (search : Search) : Except CriteriaError Plan :=
  (all root).refine schema (.search search)

end Plan

end PathQuery
