import PathQuery.Entity
import PathQuery.Staging
import PathQuery.Value.Comparison
import PathQuery.Value.FieldMap
import PathQuery.Value.Literal

/-! Stored rows. Each entity has a table, found by the name of the entity, with its rows in
the order of their insertion. A row goes in when it has a value for every attribute of the
primary key and no row of the table has an equal key; the table is made before the keys in it
are looked at. -/

namespace PathQuery

inductive StoreError
  | notFound (entity : String)
  | multipleResults (entity : String) (count : Nat)
  | duplicateKey (entity key : String)
  | missingPrimaryKey (entity name : String)
  deriving DecidableEq, Repr

def StoreError.message : StoreError → String
  | .notFound entity => s!"expected exactly one row, found 0 (entity {entity})"
  | .multipleResults entity count => s!"expected exactly one row, found {count} (entity {entity})"
  | .duplicateKey entity key => s!"duplicate primary key {key} (entity {entity})"
  | .missingPrimaryKey entity name =>
    s!"row is missing primary-key attribute '{name}' (entity {entity})"

namespace Entity

/-- The values of some key attributes in a row; all have to be there and not null. -/
def keyValues (e : Entity) (row : FieldMap) : List String → Except StoreError (List Value)
  | [] => .ok []
  | name :: names =>
    match row.get? name with
    | none => .error (.missingPrimaryKey e.name name)
    | some value =>
      if value.isNull then .error (.missingPrimaryKey e.name name)
      else (keyValues e row names).map (value :: ·)

/-- The primary key of a row. -/
def key (e : Entity) (row : FieldMap) : Except StoreError (List Value) :=
  e.keyValues row e.primaryKey

end Entity

/-- Keys are equal when they are equal attribute by attribute. -/
def sameKey : List Value → List Value → Bool
  | [], [] => true
  | a :: as, b :: bs => a.equals b && sameKey as bs
  | _, _ => false

def keyText (key : List Value) : String :=
  String.ofList ('(' :: Value.literalItems key ++ [')'])

structure Store where
  tables : List (String × List FieldMap)
  deriving Repr, Inhabited

namespace Store

def empty : Store := ⟨[]⟩

instance : EmptyCollection Store := ⟨empty⟩

/-- The rows of the entity of a name, in the order of their insertion. -/
def rows (s : Store) (name : String) : List FieldMap := (s.tables.lookup name).getD []

/-- The number of rows of an entity. -/
def size (s : Store) (e : Entity) : Nat := (s.rows e.name).length

def isEmpty (s : Store) : Bool := s.tables.all fun table => table.2.isEmpty

/-- Drops the rows of one entity. -/
def truncate (s : Store) (e : Entity) : Store :=
  ⟨s.tables.filter fun table => !(table.1 == e.name)⟩

def clear (_ : Store) : Store := ∅

/-- A row of the entity has this key. -/
def hasKey (s : Store) (e : Entity) (key : List Value) : Bool :=
  (s.rows e.name).any fun row =>
    match e.key row with
    | .ok stored => sameKey stored key
    | .error _ => false

/-- Makes a table for an entity that has none. -/
def withTable (s : Store) (e : Entity) : Store :=
  match s.tables.lookup e.name with
  | some _ => s
  | none => ⟨Entries.insert e.name [] s.tables⟩

/-- Puts a row after the rows of its entity. -/
def append (s : Store) (e : Entity) (row : FieldMap) : Store :=
  ⟨Entries.insert e.name (s.rows e.name ++ [row]) s.tables⟩

end Store

/-- Works on a store. -/
abbrev Storing := EStateM StoreError Store

namespace Store

/-- Stores a row in place. -/
def insertM (e : Entity) (row : FieldMap) : Storing Unit := do
  let key ← liftExcept (e.key row)
  modify fun s => s.withTable e
  if (← get).hasKey e key then throw (.duplicateKey e.name (keyText key))
  modify fun s => s.append e row

/-- The store with one row more. -/
def insert (s : Store) (e : Entity) (row : FieldMap) : Except StoreError Store :=
  (outcome (insertM e row) s).map (·.2)

@[simp] theorem rows_withTable (s : Store) (e : Entity) (name : String) :
    (s.withTable e).rows name = s.rows name := by
  rw [withTable]
  split
  · rfl
  · next h =>
    rw [rows, rows, Entries.lookup_insert]
    split
    · next hname => rw [hname, h]; rfl
    · rfl

@[simp] theorem hasKey_withTable (s : Store) (e f : Entity) (key : List Value) :
    (s.withTable e).hasKey f key = s.hasKey f key := by
  rw [hasKey, hasKey, rows_withTable]

/-- A table with a row in it is there already. -/
theorem withTable_of_hasKey {s : Store} {e : Entity} {key : List Value}
    (h : s.hasKey e key = true) : s.withTable e = s := by
  rw [withTable]
  split
  · rfl
  · next hnone => simp [hasKey, rows, hnone] at h

/-- A row is refused before the store is changed, or it goes in. -/
theorem insertM_apply (e : Entity) (row : FieldMap) (s : Store) :
    insertM e row s = match e.key row with
      | .error err => .error err s
      | .ok key =>
        if s.hasKey e key then .error (.duplicateKey e.name (keyText key)) s
        else .ok () ((s.withTable e).append e row) := by
  have hrun : insertM e row s = match e.key row with
      | .error err => .error err s
      | .ok key =>
        if (s.withTable e).hasKey e key then
          .error (.duplicateKey e.name (keyText key)) (s.withTable e)
        else .ok () ((s.withTable e).append e row) := by
    unfold insertM
    cases e.key row with
    | error _ => rfl
    | ok key =>
      change (if _ then _ else _ : Storing Unit) (s.withTable e) = _
      simp only []
      split <;> rfl
  rw [hrun]
  cases e.key row with
  | error _ => rfl
  | ok key =>
    simp only [hasKey_withTable]
    split
    · next h => rw [withTable_of_hasKey h]
    · rfl

theorem rows_append (s : Store) (e : Entity) (row : FieldMap) (name : String) :
    (s.append e row).rows name = if name = e.name then s.rows name ++ [row] else s.rows name := by
  rw [rows, append, Entries.lookup_insert]
  split
  · next h => rw [h]; rfl
  · rfl

theorem rows_truncate (s : Store) (e : Entity) (name : String) :
    (s.truncate e).rows name = if name = e.name then [] else s.rows name := by
  rw [rows, rows, truncate]
  generalize s.tables = tables
  induction tables with
  | nil => simp
  | cons t tables ih =>
    by_cases ht : t.1 = e.name
    · rw [List.filter_cons_of_neg (by simp [ht]), ih, Entries.lookup_cons]
      grind
    · rw [List.filter_cons_of_pos (by simp [ht]), Entries.lookup_cons, Entries.lookup_cons]
      grind

end Store

end PathQuery
