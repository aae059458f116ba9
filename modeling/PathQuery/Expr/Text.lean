import PathQuery.Expr.Basic
import PathQuery.Value.Literal

/-! Expressions as query text. Every conjunction and disjunction stands in parentheses, so
grouping never depends on precedence. -/

namespace PathQuery

namespace Expr

mutual

def chars : Expr → List Char
  | .compare column op value =>
    column.chars ++ ' ' :: op.spelling.toList ++ ' ' :: value.literalChars
  | .and parts => '(' :: charsOfParts " AND ".toList parts ++ [')']
  | .or parts => '(' :: charsOfParts " OR ".toList parts ++ [')']
  | .not part => "NOT (".toList ++ chars part ++ [')']

/-- The parts with a separator between each two. -/
def charsOfParts (separator : List Char) : List Expr → List Char
  | [] => []
  | [e] => chars e
  | e :: f :: rest => chars e ++ separator ++ charsOfParts separator (f :: rest)

end

def text (e : Expr) : String := String.ofList e.chars

end Expr

end PathQuery
