import PathQuery.Entity
import PathQuery.Operator
import PathQuery.Value.Basic

/-! Why criteria do not resolve against an entity. -/

namespace PathQuery

/-- Why a pattern comparison does not apply. -/
inductive PatternFault
  | attributeKind (kind : ScalarKind)
  | patternKind (kind : ValueKind)
  deriving DecidableEq, Repr

def PatternFault.message : PatternFault → String
  | .attributeKind kind =>
    let label := kind.label
    s!"attribute is {label}, pattern matching needs text"
  | .patternKind kind =>
    let label := kind.label
    s!"pattern must be text, got {label}"

inductive CriteriaError
  | emptyPath
  | emptySegment (path : String)
  | missingAttribute (path : String)
  | unknownRelation (entity name : String)
  | unknownAttribute (entity name : String)
  | relationNotComparable (entity name : String)
  | invalidListValue (entity name : String) (op : CompareOp) (kind : ValueKind)
  | unsupportedOperator (entity name : String) (op : CompareOp) (fault : PatternFault)
  | emptyCriteria
  deriving DecidableEq, Repr

namespace CriteriaError

def message : CriteriaError → String
  | .emptyPath => "criteria path is empty"
  | .emptySegment path => s!"criteria path '{path}' contains an empty segment"
  | .missingAttribute path => s!"criteria path '{path}' names no attribute"
  | .unknownRelation entity name => s!"entity '{entity}' has no relationship '{name}'"
  | .unknownAttribute entity name => s!"entity '{entity}' has no scalar attribute '{name}'"
  | .relationNotComparable entity name =>
    s!"'{entity}.{name}' is a relationship; compare one of its scalar attributes instead"
  | .invalidListValue entity name op kind =>
    let spelling := op.spelling
    let label := kind.label
    s!"operator '{spelling}' on '{entity}.{name}' requires a list value, got {label}"
  | .unsupportedOperator entity name op fault =>
    let spelling := op.spelling
    let detail := fault.message
    s!"operator '{spelling}' is not supported on '{entity}.{name}' ({detail})"
  | .emptyCriteria => "criteria set is empty"

/-- A name on the path, of a hop or of the attribute, is not there. -/
def isUnknownName : CriteriaError → Bool
  | .unknownRelation _ _ => true
  | .unknownAttribute _ _ => true
  | _ => false

end CriteriaError

end PathQuery
