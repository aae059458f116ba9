import PathQuery.Expr.Eval
import PathQuery.Plan
import PathQuery.Store.Basic

/-! The rows that a plan selects, by nested loops. Every root row starts a candidate. The
joins are done in order, each extending every candidate by every partner it has among the
rows of the target, so a candidate without a partner is dropped. A candidate that satisfies
all clauses selects its root row; a root row is taken at the first candidate that selects
it and passed over at the others. -/

namespace PathQuery

namespace Join

/-- The row has under the remote key what the tuple has in the source slot under the local
key. -/
def pairs (j : Join) (tuple : Tuple) (row : FieldMap) : Bool :=
  match tuple[j.sourceSlot]?.bind fun source => source.get? j.relation.localKey with
  | none => false
  | some localValue => (row.get? j.relation.remoteKey).any fun remote => localValue.equals remote

end Join

/-- A tuple in the making, with the place of its root row. -/
structure Candidate where
  index : Nat
  tuple : Tuple

namespace Candidate

def start (index : Nat) (row : FieldMap) : Candidate := ⟨index, [row]⟩

/-- One more row, in the slot after the others. -/
def extend (c : Candidate) (row : FieldMap) : Candidate := ⟨c.index, c.tuple ++ [row]⟩

end Candidate

namespace Store

/-- Every root row by itself. -/
def scan (s : Store) (root : Entity) : List Candidate := (s.rows root.name).mapIdx Candidate.start

/-- Extends every candidate by each of its partners. -/
def innerJoin (s : Store) (candidates : List Candidate) (j : Join) : List Candidate :=
  candidates.flatMap fun c => ((s.rows j.target.name).filter (j.pairs c.tuple)).map c.extend

/-- The candidates after some joins. -/
def candidates (s : Store) (root : Entity) (joins : List Join) : List Candidate :=
  joins.foldl s.innerJoin (s.scan root)

/-- The candidates that satisfy all clauses of a plan. -/
def matching (s : Store) (p : Plan) : List Candidate :=
  (s.candidates p.root p.joins.joins).filter fun c => p.predicate?.all (Expr.holds c.tuple)

/-- The places of the selected rows in the table of the root entity. -/
def positions (s : Store) (p : Plan) : List Nat :=
  ((s.matching p).map Candidate.index).eraseDups

def execute (s : Store) (p : Plan) : List FieldMap :=
  (s.positions p).filterMap fun i => (s.rows p.root.name)[i]?

end Store

end PathQuery
