/-! Entities and their attributes. An entity has scalar attributes and relationships; a
relationship leads to another entity, whose rows carry under the remote key what its own
row carries under the local key. Relationships name their target by a key, and a schema
gives the entity behind each key, so entities may lead back to themselves. -/

namespace PathQuery

inductive ScalarKind
  | bool
  | int
  | uint
  | float
  | text
  deriving DecidableEq, Repr

/-- The name of a kind in messages. -/
def ScalarKind.label : ScalarKind → String
  | .bool => "bool"
  | .int => "int"
  | .uint => "uint"
  | .float => "float"
  | .text => "text"

/-- Whether a relationship leads to at most one row or to several. -/
inductive Cardinality
  | one
  | many
  deriving DecidableEq, Repr

structure Relation where
  target : String
  cardinality : Cardinality
  localKey : String
  remoteKey : String
  deriving DecidableEq, Repr

inductive AttributeKind
  | scalar (kind : ScalarKind)
  | relation (relation : Relation)
  deriving DecidableEq, Repr

structure Attribute where
  name : String
  kind : AttributeKind
  deriving DecidableEq, Repr

/-- A kind of row. Its name is its identity; its path tells where it is declared. -/
structure Entity where
  path : String
  name : String
  table : String
  primaryKey : List String
  attributes : List Attribute
  deriving DecidableEq, Repr, Inhabited

namespace Attribute

def scalar (name : String) (kind : ScalarKind) : Attribute := ⟨name, .scalar kind⟩

/-- A relationship to at most one row. -/
def toOne (name target localKey remoteKey : String) : Attribute :=
  ⟨name, .relation ⟨target, .one, localKey, remoteKey⟩⟩

/-- A relationship to any number of rows. -/
def toMany (name target localKey remoteKey : String) : Attribute :=
  ⟨name, .relation ⟨target, .many, localKey, remoteKey⟩⟩

def scalar? (a : Attribute) : Option ScalarKind :=
  match a.kind with
  | .scalar kind => some kind
  | .relation _ => none

def relation? (a : Attribute) : Option Relation :=
  match a.kind with
  | .scalar _ => none
  | .relation relation => some relation

end Attribute

namespace Entity

/-- The first attribute of a name. -/
def attribute? (e : Entity) (name : String) : Option Attribute :=
  e.attributes.find? fun a => a.name == name

/-- The kind of a scalar attribute; only the first attribute of the name counts. -/
def scalar? (e : Entity) (name : String) : Option ScalarKind :=
  (e.attribute? name).bind Attribute.scalar?

/-- A relationship by name; only the first attribute of the name counts. -/
def relation? (e : Entity) (name : String) : Option Relation :=
  (e.attribute? name).bind Attribute.relation?

/-- The scalar attributes in order. -/
def scalars (e : Entity) : List (String × ScalarKind) :=
  e.attributes.filterMap fun a => a.scalar?.map fun kind => (a.name, kind)

/-- The relationships in order. -/
def relations (e : Entity) : List (String × Relation) :=
  e.attributes.filterMap fun a => a.relation?.map fun relation => (a.name, relation)

/-- Two entities of one name are one. -/
def is (a b : Entity) : Bool := a.name == b.name

theorem mem_scalars {e : Entity} {name : String} {kind : ScalarKind} :
    (name, kind) ∈ e.scalars ↔ ⟨name, .scalar kind⟩ ∈ e.attributes := by
  rw [scalars, List.mem_filterMap]
  constructor
  · rintro ⟨⟨n, k | r⟩, ha, h⟩
    · cases h
      exact ha
    · cases h
  · exact fun ha => ⟨_, ha, rfl⟩

theorem mem_relations {e : Entity} {name : String} {relation : Relation} :
    (name, relation) ∈ e.relations ↔ ⟨name, .relation relation⟩ ∈ e.attributes := by
  rw [relations, List.mem_filterMap]
  constructor
  · rintro ⟨⟨n, k | r⟩, ha, h⟩
    · cases h
    · cases h
      exact ha
  · exact fun ha => ⟨_, ha, rfl⟩

theorem is_iff {a b : Entity} : a.is b = true ↔ a.name = b.name := by simp [is]

end Entity

/-- Which entity stands behind each key. -/
structure Schema where
  entity : String → Entity

namespace Schema

def target (schema : Schema) (relation : Relation) : Entity := schema.entity relation.target

/-- The schema of a list of entities by key; behind any other key stands an entity without
attributes. -/
def ofList (entities : List (String × Entity)) : Schema :=
  ⟨fun key => (entities.lookup key).getD ⟨key, key, key, [], []⟩⟩

end Schema

end PathQuery
