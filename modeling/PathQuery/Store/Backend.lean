import PathQuery.Store.Execute

/-! Where plans are run. A backend runs a plan and may do something beside, such as keep a
trace; counting, fetching one row and looking rows up by an attribute are all made of
single runs. A store is a backend without effects, and a traced one records each run. -/

namespace PathQuery

structure Backend (m : Type → Type) where
  execute : Plan → m (List FieldMap)

namespace Plan

/-- The rows of an entity with a value under an attribute. -/
def lookup (entity : Entity) (field : String) (value : Value) : Plan :=
  (all entity).push (.compare (Column.root entity field) .eq value)

end Plan

namespace Backend

variable {m : Type → Type} [Monad m]

def count (b : Backend m) (p : Plan) : m Nat := return (← b.execute p).length

/-- The only row of a result. -/
def single (entity : Entity) : List FieldMap → Except StoreError FieldMap
  | [] => .error (.notFound entity.name)
  | [row] => .ok row
  | rows => .error (.multipleResults entity.name rows.length)

def fetchOne (b : Backend m) (p : Plan) : m (Except StoreError FieldMap) :=
  return single p.root (← b.execute p)

def lookup (b : Backend m) (entity : Entity) (field : String) (value : Value) :
    m (List FieldMap) :=
  b.execute (Plan.lookup entity field value)

end Backend

/-- What a traced store records. -/
inductive StoreEvent
  | inserted (path key : String)
  | selected (path : String) (scanned matched : Nat)
  deriving DecidableEq, Repr

def StoreEvent.message : StoreEvent → String
  | .inserted _ _ => "insert"
  | .selected _ _ _ => "select"

namespace Store

def backend (s : Store) : Backend Id := ⟨fun p => s.execute p⟩

/-- The record of one run. -/
def selection (s : Store) (p : Plan) : StoreEvent :=
  .selected p.root.path (s.rows p.root.name).length (s.execute p).length

/-- Runs plans and records the runs in order. -/
def traced (s : Store) : Backend (StateM (List StoreEvent)) :=
  ⟨fun p => fun events => (s.execute p, events ++ [s.selection p])⟩

/-- Stores a row, and records it when it is accepted. -/
def insertTraced (s : Store) (e : Entity) (row : FieldMap) :
    Except StoreError (Store × StoreEvent) := do
  let key ← e.key row
  let next ← s.insert e row
  return (next, .inserted e.path (keyText key))

end Store

end PathQuery
