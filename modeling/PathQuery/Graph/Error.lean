import PathQuery.Value.Basic

/-! Why a mapping does not fit an entity. -/

namespace PathQuery

/-- What a relationship takes: one nested mapping or a list of them. -/
inductive NestedShape
  | mapping
  | mappings
  deriving DecidableEq, Repr

def NestedShape.label : NestedShape → String
  | .mapping => "a mapping"
  | .mappings => "a list of mappings"

inductive LoadError
  | missingKey (entity name : String)
  | unknownAttribute (entity name : String)
  | invalidRelationValue (entity name : String) (expected : NestedShape) (kind : ValueKind)
  deriving DecidableEq, Repr

def LoadError.message : LoadError → String
  | .missingKey entity name => s!"mapping for '{entity}' is missing attribute '{name}'"
  | .unknownAttribute entity name => s!"mapping for '{entity}' has unknown attribute '{name}'"
  | .invalidRelationValue entity name expected kind =>
    let shape := expected.label
    let label := kind.label
    s!"relationship '{entity}.{name}' expects {shape}, got {label}"

end PathQuery
