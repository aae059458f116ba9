import PathQuery.Graph.Load
import PathQuery.Proofs.NestedLoop
import PathQuery.Proofs.Tables

/-! Loading from a store, step by step. A store answers without effects, so the parts of a load
are plain results or errors, one after the other: names, scalars over the stored row, then the
relationships in order, each of which is left alone, adopts the key of its related row, or has
its items loaded. -/

namespace PathQuery

namespace Entity

variable {e : Entity} {hard : Bool} {mapping other : FieldMap}

theorem unknownName?_eq_none_iff :
    e.unknownName? mapping = none ↔ ∀ name ∈ mapping.keys, ∃ a ∈ e.attributes, a.name = name := by
  simp [unknownName?, attribute?]

theorem checkNames_eq_ok
    (h : hard = true → ∀ name ∈ mapping.keys, ∃ a ∈ e.attributes, a.name = name) :
    e.checkNames hard mapping = .ok () := by
  unfold checkNames
  cases hard with
  | false => rfl
  | true => rw [if_pos rfl, unknownName?_eq_none_iff.mpr (h rfl)]

theorem keyFilters?_isSome_iff :
    (e.keyFilters? mapping e.primaryKey).isSome ↔ e.Keyed mapping := by
  unfold Keyed
  induction e.primaryKey with
  | nil => simp [keyFilters?]
  | cons name names ih =>
    rw [keyFilters?, List.forall_mem_cons, ← ih]
    cases mapping.get? name with
    | none => simp
    | some value => cases hn : value.isNull <;> simp [hn]

/-- The clauses ask for rows of the same key. -/
theorem all_keyFilters? {filters : List Expr}
    (h : e.keyFilters? mapping e.primaryKey = some filters) :
    filters.all (Expr.holds [other]) = true ↔ e.SameKey other mapping := by
  unfold SameKey
  generalize e.primaryKey = names at h
  induction names generalizing filters with
  | nil =>
    cases h
    simp
  | cons name names ih =>
    rw [keyFilters?] at h
    cases hm : mapping.get? name with
    | none => simp [hm] at h
    | some value =>
      simp only [hm, Option.ite_none_left_eq_some, Option.map_eq_some_iff] at h
      obtain ⟨-, rest, hrest, rfl⟩ := h
      rw [List.all_cons, Bool.and_eq_true, ih hrest, List.forall_mem_cons]
      simp [Expr.holds, Column.read, Column.root, rootSlot, CompareOp.holds, Option.any_eq_true, hm]

end Entity

namespace Store

def stored (s : Store) (e : Entity) (mapping : FieldMap) : FieldMap :=
  Id.run (s.backend.stored e mapping)

def loadRelations (s : Store) (schema : Schema) (hard : Bool) (e : Entity) (mapping : FieldMap)
    (relations : List (String × Relation)) (row : FieldMap) : Except LoadError FieldMap :=
  Id.run (s.backend.loadRelations schema hard e mapping relations row).run

def loadItems (s : Store) (schema : Schema) (hard : Bool) (e : Entity) (name : String)
    (target : Entity) (items : List Value) : Except LoadError Unit :=
  Id.run (s.backend.loadItems schema hard e name target items).run

variable {s : Store} {schema : Schema} {hard : Bool} {e target : Entity}
  {mapping row : FieldMap} {name : String} {relation : Relation}
  {relations : List (String × Relation)} {entries : List (String × Value)} {items : List Value}
  {value : Value}

theorem load_eq : s.load schema hard e mapping = (do
    e.checkNames hard mapping
    let row ← e.overlay hard mapping e.scalars (s.stored e mapping)
    s.loadRelations schema hard e mapping e.relations row) := by
  rw [load, Backend.load]
  simp only [run_bind, run_liftExcept]
  rfl

/-- Without a whole key nothing is looked up. -/
theorem stored_of_not_keyed (h : e.primaryKey = [] ∨ ¬ e.Keyed mapping) :
    s.stored e mapping = ∅ := by
  have hplan : e.storedPlan? mapping = none := by
    rw [Entity.storedPlan?]
    split
    · rfl
    · next hne =>
      have hkeyed : ¬ e.Keyed mapping := h.resolve_left (by simpa using hne)
      rw [← Entity.keyFilters?_isSome_iff, Option.not_isSome_iff_eq_none] at hkeyed
      rw [hkeyed, Option.map_none]
  rw [stored, Backend.stored, hplan]
  rfl

/-- With a whole key, the row is the first stored one of the same key. -/
theorem stored_of_keyed (hne : e.primaryKey ≠ []) (h : e.Keyed mapping) :
    s.stored e mapping
      = ((s.rows e.name).find? fun other => decide (e.SameKey other mapping)).getD ∅ := by
  obtain ⟨filters, hfilters⟩ :=
    Option.isSome_iff_exists.mp (Entity.keyFilters?_isSome_iff.mpr h)
  have hplan : e.storedPlan? mapping = some ⟨e, ∅, filters⟩ := by
    rw [Entity.storedPlan?, if_neg (by simpa using hne), hfilters, Option.map_some]
  have hrows : s.execute ⟨e, ∅, filters⟩
      = (s.rows e.name).filter fun other => decide (e.SameKey other mapping) := by
    rw [execute_of_no_joins rfl]
    apply List.filter_congr
    intro other _
    rw [Bool.eq_iff_iff, Entity.all_keyFilters? hfilters, decide_eq_true_iff]
  rw [← List.head?_filter, ← hrows, stored, Backend.stored, hplan]
  rfl

/-! ### Relationships -/

@[simp] theorem loadRelations_nil :
    s.loadRelations schema hard e mapping [] row = .ok row := by
  rw [loadRelations, Backend.loadRelations]
  rfl

theorem loadRelations_of_absent (h : mapping.get? name = none) :
    s.loadRelations schema hard e mapping ((name, relation) :: relations) row
      = s.loadRelations schema hard e mapping relations row := by
  rw [loadRelations, Backend.loadRelations]
  split <;> simp_all [loadRelations]

theorem loadRelations_of_null (h : mapping.get? name = some .null) :
    s.loadRelations schema hard e mapping ((name, relation) :: relations) row
      = s.loadRelations schema hard e mapping relations row := by
  rw [loadRelations, Backend.loadRelations]
  split <;> simp_all [loadRelations]

/-- A single related mapping is loaded, and its row gives its key. -/
theorem loadRelations_of_map (hc : relation.cardinality = .one)
    (h : mapping.get? name = some (.map entries)) :
    s.loadRelations schema hard e mapping ((name, relation) :: relations) row = (do
      let related ← s.load schema hard (schema.target relation) (.ofEntries entries)
      s.loadRelations schema hard e mapping relations (row.adopt relation related)) := by
  have hstep : s.backend.loadRelations schema hard e mapping ((name, relation) :: relations) row
      = (do
        let related ← s.backend.load schema hard (schema.target relation) (.ofEntries entries)
        s.backend.loadRelations schema hard e mapping relations (row.adopt relation related)) := by
    rw [Backend.loadRelations]
    split <;> simp_all
  rw [loadRelations, hstep, run_bind]
  rfl

/-- The items of a list are loaded to be checked. -/
theorem loadRelations_of_list (hc : relation.cardinality = .many)
    (h : mapping.get? name = some (.list items)) :
    s.loadRelations schema hard e mapping ((name, relation) :: relations) row = (do
      s.loadItems schema hard e name (schema.target relation) items
      s.loadRelations schema hard e mapping relations row) := by
  have hstep : s.backend.loadRelations schema hard e mapping ((name, relation) :: relations) row
      = (do
        s.backend.loadItems schema hard e name (schema.target relation) items
        s.backend.loadRelations schema hard e mapping relations row) := by
    rw [Backend.loadRelations]
    split <;> simp_all
  rw [loadRelations, hstep, run_bind]
  rfl

theorem loadRelations_of_no_map (hc : relation.cardinality = .one)
    (h : mapping.get? name = some value) (hnull : value ≠ .null)
    (hmap : ∀ entries, value ≠ .map entries) :
    s.loadRelations schema hard e mapping ((name, relation) :: relations) row
      = .error (.invalidRelationValue e.name name .mapping value.kind) := by
  cases value with
  | null => exact absurd rfl hnull
  | map entries => exact absurd rfl (hmap entries)
  | _ =>
    rw [loadRelations, Backend.loadRelations]
    split <;> simp_all

theorem loadRelations_of_no_list (hc : relation.cardinality = .many)
    (h : mapping.get? name = some value) (hnull : value ≠ .null)
    (hlist : ∀ items, value ≠ .list items) :
    s.loadRelations schema hard e mapping ((name, relation) :: relations) row
      = .error (.invalidRelationValue e.name name .mappings value.kind) := by
  cases value with
  | null => exact absurd rfl hnull
  | list items => exact absurd rfl (hlist items)
  | _ =>
    rw [loadRelations, Backend.loadRelations]
    split <;> simp_all

/-! ### Items -/

@[simp] theorem loadItems_nil : s.loadItems schema hard e name target [] = .ok () := by
  rw [loadItems, Backend.loadItems]
  rfl

theorem loadItems_cons_map :
    s.loadItems schema hard e name target (.map entries :: items) = (do
      let _ ← s.load schema hard target (.ofEntries entries)
      s.loadItems schema hard e name target items) := by
  rw [loadItems, Backend.loadItems, run_bind]
  rfl

theorem loadItems_cons_of_no_map (hmap : ∀ entries, value ≠ .map entries) :
    s.loadItems schema hard e name target (value :: items)
      = .error (.invalidRelationValue e.name name .mappings .list) := by
  cases value with
  | map entries => exact absurd rfl (hmap entries)
  | _ =>
    rw [loadItems, Backend.loadItems]
    · rfl
    · exact hmap

end Store

end PathQuery
