import PathQuery.Expr.Basic

/-! Joins and the set of them that one query needs. A join follows a relationship from the
row in one slot to a row of the target entity, which takes the slot of the join. The set
holds one join for each target: the first way of reaching an entity decides how it is
joined, and a later one shares its slot. The root row is not in the set, so a path back to
the root entity gets a join of its own. -/

namespace PathQuery

structure Join where
  source : Entity
  sourceSlot : Nat
  name : String
  relation : Relation
  target : Entity
  slot : Nat
  deriving DecidableEq, Repr

namespace Join

/-- A step along a relationship; the set that takes it in gives it its slot. -/
def step (source : Entity) (sourceSlot : Nat) (name : String) (relation : Relation)
    (target : Entity) : Join :=
  ⟨source, sourceSlot, name, relation, target, rootSlot⟩

def text (j : Join) : String :=
  let table := j.target.table
  let target := String.ofList (slotName j.target.table j.slot)
  let source := String.ofList (slotName j.source.table j.sourceSlot)
  let localKey := j.relation.localKey
  let remoteKey := j.relation.remoteKey
  s!"JOIN {table} AS {target} ON {source}.{localKey} = {target}.{remoteKey}"

end Join

structure JoinSet where
  joins : List Join
  deriving DecidableEq, Repr

namespace JoinSet

def empty : JoinSet := ⟨[]⟩

instance : EmptyCollection JoinSet := ⟨empty⟩

def size (s : JoinSet) : Nat := s.joins.length

/-- The slot of the join that reaches an entity. -/
def slotOf? (s : JoinSet) (entity : Entity) : Option Nat :=
  (s.joins.find? fun j => j.target.is entity).map Join.slot

def contains (s : JoinSet) (entity : Entity) : Bool := (s.slotOf? entity).isSome

/-- Takes a join in unless its target is reached already; with it, the slot of the target. -/
def insert (s : JoinSet) (join : Join) : Nat × JoinSet :=
  match s.slotOf? join.target with
  | some slot => (slot, s)
  | none => (s.size + 1, ⟨s.joins ++ [{ join with slot := s.size + 1 }]⟩)

def targets (s : JoinSet) : List Entity := s.joins.map Join.target

theorem insert_of_slotOf? {s : JoinSet} {join : Join} {slot : Nat}
    (h : s.slotOf? join.target = some slot) : s.insert join = (slot, s) := by
  simp [insert, h]

theorem insert_of_new {s : JoinSet} {join : Join} (h : s.slotOf? join.target = none) :
    s.insert join = (s.size + 1, ⟨s.joins ++ [{ join with slot := s.size + 1 }]⟩) := by
  simp [insert, h]

theorem slotOf?_append (s : JoinSet) (join : Join) (entity : Entity) :
    slotOf? ⟨s.joins ++ [join]⟩ entity
      = (s.slotOf? entity).or (if join.target.is entity then some join.slot else none) := by
  by_cases h : join.target.is entity = true <;> simp [slotOf?, List.find?_append, h]

/-- The set never moves or drops a join. -/
theorem joins_isPrefix_insert (s : JoinSet) (join : Join) :
    s.joins <+: (s.insert join).2.joins := by
  rw [insert]
  split
  · exact List.prefix_rfl
  · exact List.prefix_append _ _

/-- After the insertion the target is reached in the slot that came back. -/
theorem slotOf?_insert_self (s : JoinSet) (join : Join) :
    (s.insert join).2.slotOf? join.target = some (s.insert join).1 := by
  rw [insert]
  split
  · next h => exact h
  · next h => simp [slotOf?_append, h, Entity.is]

end JoinSet

end PathQuery
