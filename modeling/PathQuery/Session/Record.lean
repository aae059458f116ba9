import PathQuery.Entity
import PathQuery.Value.Bridge

/-! Typed records and their rows. A type of records belongs to an entity and goes to JSON
and back; its rows are the JSON objects it makes. A record may have no JSON form, and a
document may be none of its records. -/

namespace PathQuery

class Record (α : Type) where
  entity : Entity
  encode : α → Option Json
  decode : Json → Option α

inductive RecordError
  | notAMap (entity : String) (kind : ValueKind)
  | json (entity : String)
  deriving DecidableEq, Repr

/-- The words in which JSON says why a record or a document was refused are left out. -/
def RecordError.message : RecordError → String
  | .notAMap entity kind =>
    let label := kind.label
    s!"entity '{entity}' must serialize to a map, got {label}"
  | .json entity => s!"entity '{entity}'"

namespace Record

variable {α : Type} [Record α]

/-- The row of a record. -/
def toRow (record : α) : Except RecordError FieldMap :=
  let name := (Record.entity α).name
  match Record.encode record with
  | none => .error (.json name)
  | some json =>
    match json.toValue with
    | .map entries => .ok (.ofEntries entries)
    | value => .error (.notAMap name value.kind)

/-- The record of a row. -/
def ofRow (row : FieldMap) : Except RecordError α :=
  match Record.decode row.toJson with
  | none => .error (.json (Record.entity α).name)
  | some record => .ok record

end Record

end PathQuery
