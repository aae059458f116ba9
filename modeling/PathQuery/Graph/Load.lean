import PathQuery.Graph.Error
import PathQuery.Store.Backend

/-! Rows from nested mappings. A mapping with the whole primary key starts from the stored
row of that key, any other from an empty row; its scalars are laid over that row. A single
related mapping is loaded in turn and its remote key becomes the local key of the row; a
list of related mappings is loaded only to be checked. Hard loading wants every scalar
and refuses unknown names, at every level. -/

namespace PathQuery

namespace Entity

/-- The comparisons of the whole primary key with its values in a mapping, if all are there
and not null. -/
def keyFilters? (e : Entity) (mapping : FieldMap) : List String → Option (List Expr)
  | [] => some []
  | name :: names =>
    match mapping.get? name with
    | none => none
    | some value =>
      if value.isNull then none
      else (keyFilters? e mapping names).map (.compare (Column.root e name) .eq value :: ·)

/-- The plan that finds the stored row a mapping is about. -/
def storedPlan? (e : Entity) (mapping : FieldMap) : Option Plan :=
  if e.primaryKey.isEmpty then none
  else (e.keyFilters? mapping e.primaryKey).map fun filters => ⟨e, ∅, filters⟩

/-- The first name of a mapping that is no attribute. -/
def unknownName? (e : Entity) (mapping : FieldMap) : Option String :=
  mapping.keys.find? fun name => (e.attribute? name).isNone

/-- Lays the scalars of a mapping over a row. -/
def overlay (e : Entity) (hard : Bool) (mapping : FieldMap) :
    List (String × ScalarKind) → FieldMap → Except LoadError FieldMap
  | [], row => .ok row
  | (name, _) :: scalars, row =>
    match mapping.get? name with
    | some value => overlay e hard mapping scalars (row.insert name value)
    | none => if hard then .error (.missingKey e.name name) else overlay e hard mapping scalars row

/-- Hard loading refuses a name that is no attribute. -/
def checkNames (e : Entity) (hard : Bool) (mapping : FieldMap) : Except LoadError Unit :=
  if hard then
    match e.unknownName? mapping with
    | some name => .error (.unknownAttribute e.name name)
    | none => .ok ()
  else .ok ()

end Entity

/-- Gives a row the key of a related row, when that has one. -/
def FieldMap.adopt (row : FieldMap) (relation : Relation) (related : FieldMap) : FieldMap :=
  match related.get? relation.remoteKey with
  | some key => row.insert relation.localKey key
  | none => row

section

variable {m : Type → Type} [Monad m]

namespace Backend

/-- The stored row that a mapping is about, or an empty one. -/
def stored (b : Backend m) (e : Entity) (mapping : FieldMap) : m FieldMap :=
  match e.storedPlan? mapping with
  | none => pure ∅
  | some plan => return (← b.execute plan).head?.getD ∅

mutual

/-- The row of a mapping. -/
def load (b : Backend m) (schema : Schema) (hard : Bool) (e : Entity) (mapping : FieldMap) :
    ExceptT LoadError m FieldMap := do
  liftExcept (e.checkNames hard mapping)
  let base ← ExceptT.lift (b.stored e mapping)
  let row ← liftExcept (e.overlay hard mapping e.scalars base)
  b.loadRelations schema hard e mapping e.relations row
termination_by (mapping.depth, 2, 0)

/-- The row after some relationships of a mapping. -/
def loadRelations (b : Backend m) (schema : Schema) (hard : Bool) (e : Entity)
    (mapping : FieldMap) (relations : List (String × Relation)) (row : FieldMap) :
    ExceptT LoadError m FieldMap :=
  match relations with
  | [] => pure row
  | (name, relation) :: relations =>
    match relation.cardinality, _h : mapping.get? name with
    | _, none => b.loadRelations schema hard e mapping relations row
    | _, some .null => b.loadRelations schema hard e mapping relations row
    | .one, some (.map entries) => do
      let related ← b.load schema hard (schema.target relation) (.ofEntries entries)
      b.loadRelations schema hard e mapping relations (row.adopt relation related)
    | .many, some (.list items) => do
      b.loadItems schema hard e name (schema.target relation) items
      b.loadRelations schema hard e mapping relations row
    | .one, some value => throw (.invalidRelationValue e.name name .mapping value.kind)
    | .many, some value => throw (.invalidRelationValue e.name name .mappings value.kind)
termination_by (mapping.depth, 1, relations.length)
decreasing_by
  · decreasing_tactic
  · decreasing_tactic
  · exact Prod.Lex.left _ _ (FieldMap.depth_ofEntries_lt _h)
  · decreasing_tactic
  · exact Prod.Lex.left _ _ (FieldMap.depthItems_lt _h)
  · decreasing_tactic

/-- Loads every item of a list, each of which has to be a mapping. -/
def loadItems (b : Backend m) (schema : Schema) (hard : Bool) (e : Entity) (name : String)
    (target : Entity) (items : List Value) : ExceptT LoadError m Unit :=
  match items with
  | [] => pure ()
  | .map entries :: items => do
    let _ ← b.load schema hard target (.ofEntries entries)
    b.loadItems schema hard e name target items
  | _ :: _ => throw (.invalidRelationValue e.name name .mappings .list)
termination_by (Value.depthItems items, 1, items.length)
decreasing_by
  · exact Prod.Lex.left _ _ (FieldMap.depth_ofEntries_lt_depthItems entries items)
  · rw [Value.depthItems]
    exact Prod.Lex.right' _ (Nat.le_max_right _ _) (Prod.Lex.right _ (Nat.lt_succ_self _))

end

end Backend

end

/-- The row of a mapping, with what is stored here. -/
def Store.load (s : Store) (schema : Schema) (hard : Bool) (e : Entity) (mapping : FieldMap) :
    Except LoadError FieldMap :=
  Id.run (s.backend.load schema hard e mapping).run

end PathQuery
