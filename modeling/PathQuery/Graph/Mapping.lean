import PathQuery.Fault

/-! Mappings as documents: what is loaded comes as a JSON object, and what is dumped goes
out as one. -/

namespace PathQuery

/-- A document as a mapping to load; only an object is one. -/
def Json.mapping (json : Json) : Except PublicError FieldMap :=
  match json.toValue with
  | .map entries => .ok (.ofEntries entries)
  | value =>
    let label := value.kind.label
    .error ⟨.load, .serialize, s!"expected a JSON object, got {label}"⟩

end PathQuery
