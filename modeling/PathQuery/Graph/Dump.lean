import PathQuery.Store.Backend

/-! Nested mappings from rows. A mapping holds every scalar of its entity, absent ones as
null, and while levels remain also every relationship: the mapping of the first related
row or null for a single one, a list of mappings for the others. Excluded names are left
out at every level. The number of levels bounds the descent, so entities may lead back to
themselves. -/

namespace PathQuery

/-- What a relationship with these related mappings becomes. -/
def Cardinality.nest : Cardinality → List FieldMap → Value
  | .many, related => .list (related.map FieldMap.toValue)
  | .one, related => (related.head?.map FieldMap.toValue).getD .null

/-- The scalars of a row that are not excluded. -/
def Entity.scalarPart (e : Entity) (excludes : List String) (row : FieldMap) : FieldMap :=
  (e.scalars.filter fun scalar => !excludes.contains scalar.1).foldl
    (fun mapping scalar => mapping.insert scalar.1 ((row.get? scalar.1).getD .null)) ∅

namespace Backend

variable {m : Type → Type} [Monad m]

/-- The rows that a relationship leads to; none without a local key. -/
def related (b : Backend m) (schema : Schema) (row : FieldMap) (relation : Relation) :
    m (List FieldMap) :=
  match row.get? relation.localKey with
  | none => pure []
  | some key =>
    if key.isNull then pure [] else b.lookup (schema.target relation) relation.remoteKey key

/-- The mapping of a row with some levels of relationships below it. -/
def dumpBelow (b : Backend m) (schema : Schema) (excludes : List String) :
    Nat → Entity → FieldMap → m FieldMap
  | 0, e, row => pure (e.scalarPart excludes row)
  | levels + 1, e, row =>
    (e.relations.filter fun relation => !excludes.contains relation.1).foldlM
      (fun mapping (name, relation) => do
        let related ← b.related schema row relation
        let nested ← related.mapM (b.dumpBelow schema excludes levels (schema.target relation))
        return mapping.insert name (relation.cardinality.nest nested))
      (e.scalarPart excludes row)

/-- The mapping of a row; its own entity is the first level. -/
def dump (b : Backend m) (schema : Schema) (e : Entity) (row : FieldMap) (depth : Nat)
    (excludes : List String) : m FieldMap :=
  b.dumpBelow schema excludes (depth - 1) e row

end Backend

/-- The mapping of a row, with what is stored here. -/
def Store.dump (s : Store) (schema : Schema) (e : Entity) (row : FieldMap) (depth : Nat)
    (excludes : List String) : FieldMap :=
  Id.run (s.backend.dump schema e row depth excludes)

end PathQuery
