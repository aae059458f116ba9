import PathQuery.Value.FieldMap

/-! What may stand on the right of a criterion: integers of every width, truth values,
doubles, text, optional things, sequences and records. Signed integers stay signed and
unsigned ones unsigned. -/

namespace PathQuery

class ToValue (α : Type) where
  toValue : α → Value

export ToValue (toValue)

instance : ToValue Value := ⟨id⟩

instance : ToValue Bool := ⟨.bool⟩

instance : ToValue Int8 := ⟨fun n => .int n.toInt64⟩

instance : ToValue Int16 := ⟨fun n => .int n.toInt64⟩

instance : ToValue Int32 := ⟨fun n => .int n.toInt64⟩

instance : ToValue Int64 := ⟨.int⟩

instance : ToValue UInt8 := ⟨fun n => .uint n.toUInt64⟩

instance : ToValue UInt16 := ⟨fun n => .uint n.toUInt64⟩

instance : ToValue UInt32 := ⟨fun n => .uint n.toUInt64⟩

instance : ToValue UInt64 := ⟨.uint⟩

instance : ToValue Binary64 := ⟨.float⟩

instance : ToValue String := ⟨.text⟩

instance : ToValue FieldMap := ⟨FieldMap.toValue⟩

section

variable {α : Type} [ToValue α]

/-- Nothing is null. -/
instance : ToValue (Option α) := ⟨fun x => x.elim .null toValue⟩

instance : ToValue (List α) := ⟨fun xs => .list (xs.map toValue)⟩

instance : ToValue (Array α) := ⟨fun xs => toValue xs.toList⟩

instance {n : Nat} : ToValue (Vector α n) := ⟨fun xs => toValue xs.toArray⟩

end

end PathQuery
