/-! The nine comparisons, their spelling in query text, and the tokens that name them at
the end of a criteria path. Equality has no token: it is what a path without one means. -/

namespace PathQuery

inductive CompareOp
  | eq
  | ne
  | lt
  | le
  | gt
  | ge
  | within
  | like
  | ilike
  deriving DecidableEq, Repr

namespace CompareOp

/-- The spelling in query text. -/
def spelling : CompareOp → String
  | .eq => "="
  | .ne => "!="
  | .lt => "<"
  | .le => "<="
  | .gt => ">"
  | .ge => ">="
  | .within => "IN"
  | .like => "LIKE"
  | .ilike => "ILIKE"

/-- The last segment of a path that asks for the comparison. -/
def token? : CompareOp → Option String
  | .eq => none
  | .ne => some "not"
  | .lt => some "lt"
  | .le => some "le"
  | .gt => some "gt"
  | .ge => some "ge"
  | .within => some "in"
  | .like => some "like"
  | .ilike => some "ilike"

def all : List CompareOp := [.eq, .ne, .lt, .le, .gt, .ge, .within, .like, .ilike]

/-- The comparison that a token names. -/
def ofToken? (token : String) : Option CompareOp :=
  all.find? fun op => op.token? == some token

theorem token?_of_ofToken? {token : String} {op : CompareOp} (h : ofToken? token = some op) :
    op.token? = some token := by
  simpa using List.find?_some h

theorem ofToken?_of_token? {token : String} {op : CompareOp} (h : op.token? = some token) :
    ofToken? token = some op := by
  cases op <;> cases h <;> decide

end CompareOp

end PathQuery
