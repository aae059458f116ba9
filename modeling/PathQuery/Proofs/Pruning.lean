import PathQuery.Proofs.Unfolding
import PathQuery.Specimen.Entities
import PathQuery.Value.Identity

/-! Dumps as unfoldings cut off at a depth. Rows and relationships make a graph that may lead back
into itself, and a dump unfolds it from one row. Each mapping in it has the scalars of its row,
and above the last level also its relationships, with the dumps of the rows that they link, one
level less deep. So a dump of some depth has all dumps of smaller depth in it: taking the
relationships out of every mapping on one level leaves the dump of that depth. -/

namespace PathQuery

/-! ### Taking entries out -/

namespace FieldMap

/-- Changes each entry, or takes it out. -/
def filterMap (f : String → Value → Option Value) (row : FieldMap) : FieldMap :=
  ⟨row.entries.filterMap fun e => (f e.1 e.2).map fun value => (e.1, value), by
    refine row.sorted.filterMap _ fun a b hlt x hx y hy => ?_
    obtain ⟨v, -, rfl⟩ := Option.map_eq_some_iff.mp hx
    obtain ⟨w, -, rfl⟩ := Option.map_eq_some_iff.mp hy
    exact hlt⟩

theorem get?_filterMap (f : String → Value → Option Value) (row : FieldMap) (name : String) :
    (row.filterMap f).get? name = (row.get? name).bind (f name) := by
  obtain ⟨entries, hs⟩ := row
  change List.lookup name (entries.filterMap _) = (List.lookup name entries).bind (f name)
  induction entries with
  | nil => rfl
  | cons e entries ih =>
    obtain ⟨hfirst, hs⟩ := List.pairwise_cons.mp hs
    rw [Entries.lookup_cons, List.filterMap_cons]
    by_cases hname : name = e.1
    · subst hname
      cases hv : f e.1 e.2 with
      | none =>
        -- the entry is taken out, and no other has its name
        rw [Option.map_none, ih hs, Entries.lookup_eq_none_of_sorted hfirst]
        simp [hv]
      | some value =>
        simp [hv]
    · rw [if_neg hname, ← ih hs]
      cases f e.1 e.2 with
      | none => rfl
      | some value => exact (Entries.lookup_cons _ _ _).trans (if_neg hname)

end FieldMap

namespace Value

/-- Changes a mapping and leaves any other value. -/
def onMapping (f : FieldMap → FieldMap) (v : Value) : Value :=
  (v.fieldMap?.map fun mapping => (f mapping).toValue).getD v

/-- Changes a mapping, or every mapping in a list. -/
def onMappings (f : FieldMap → FieldMap) : Value → Value
  | .list items => .list (items.map (onMapping f))
  | v => v.onMapping f

@[simp] theorem onMapping_toValue (f : FieldMap → FieldMap) (mapping : FieldMap) :
    onMapping f mapping.toValue = (f mapping).toValue := by
  simp [onMapping, FieldMap.toValue, fieldMap?]

end Value

theorem Cardinality.onMappings_nest (f : FieldMap → FieldMap) (c : Cardinality)
    (related : List FieldMap) : (c.nest related).onMappings f = c.nest (related.map f) := by
  cases c with
  | many => simp [nest, Value.onMappings]
  | one =>
    cases related with
    | nil => rfl
    | cons mapping related => exact Value.onMapping_toValue f mapping

/-! ### Entities below an entity -/

namespace Entity

variable {e : Entity} {name : String} {relation : Relation}

theorem Distinct.relation?_eq_some_iff (h : e.Distinct) :
    e.relation? name = some relation ↔ (name, relation) ∈ e.relations := by
  rw [mem_relations, relation?, attribute?, Option.bind_eq_some_iff]
  constructor
  · rintro ⟨⟨other, kind⟩, ha, hr⟩
    have hname : other = name := by simpa using List.find?_some ha
    cases kind with
    | scalar _ => cases hr
    | relation _ =>
      cases hr
      rw [← hname]
      exact List.mem_of_find?_eq_some ha
  · intro hm
    cases ha : e.attributes.find? fun a => a.name == name with
    | none => simpa using List.find?_eq_none.mp ha _ hm
    | some a =>
      have hname : a.name = name := by simpa using List.find?_some ha
      rw [h.eq_of_name (List.mem_of_find?_eq_some ha) hm hname]
      exact ⟨_, rfl, rfl⟩

theorem Distinct.relation?_eq_none_iff (h : e.Distinct) :
    e.relation? name = none ↔ name ∉ e.relations.map Prod.fst := by
  constructor
  · intro hnone hm
    obtain ⟨⟨_, relation⟩, hr, rfl⟩ := List.mem_map.mp hm
    rw [h.relation?_eq_some_iff.mpr hr] at hnone
    cases hnone
  · intro hm
    cases hr : e.relation? name with
    | none => rfl
    | some relation =>
      exact absurd (List.mem_map.mpr ⟨_, h.relation?_eq_some_iff.mp hr, rfl⟩) hm

end Entity

namespace Schema

/-- Relationships lead from an entity to another, in any number of steps. -/
inductive Leads (schema : Schema) : Entity → Entity → Prop
  | stay (e : Entity) : Leads schema e e
  | relation {e f : Entity} {r : String × Relation} (hr : r ∈ e.relations)
    (h : Leads schema (schema.target r.2) f) : Leads schema e f

/-- The attributes of the entity, and of every entity it leads to, have names of their own. -/
def DistinctFrom (schema : Schema) (e : Entity) : Prop :=
  ∀ f, schema.Leads e f → f.Distinct

/-- Takes the relationships out of every mapping with that many levels above it. -/
def prune (schema : Schema) : ℕ → Entity → FieldMap → FieldMap
  | 0, e, mapping => mapping.filterMap fun name value =>
    if (e.relation? name).isSome then none else some value
  | levels + 1, e, mapping => mapping.filterMap fun name value =>
    some ((e.relation? name).elim value fun relation =>
      value.onMappings (prune schema levels (schema.target relation)))

variable {schema : Schema} {e f g : Entity}

theorem Leads.trans (h : schema.Leads e f) (h' : schema.Leads f g) : schema.Leads e g := by
  induction h with
  | stay _ => exact h'
  | relation hr _ ih => exact .relation hr (ih h')

theorem DistinctFrom.of_leads (hd : schema.DistinctFrom e) (h : schema.Leads e f) :
    schema.DistinctFrom f := fun _ h' => hd _ (h.trans h')

theorem DistinctFrom.target (hd : schema.DistinctFrom e) {r : String × Relation}
    (hr : r ∈ e.relations) : schema.DistinctFrom (schema.target r.2) :=
  hd.of_leads (.relation hr (.stay _))

end Schema

/-! ### Dumps of all depths -/

namespace Store

variable {s : Store} {schema : Schema} {excludes : List String} {levels more : ℕ} {e : Entity}
  {row : FieldMap} {name : String} {relation : Relation}

theorem onMappings_nested (f : FieldMap → FieldMap)
    (h : ∀ other, f (s.dumpBelow schema excludes more (schema.target relation) other)
      = s.dumpBelow schema excludes levels (schema.target relation) other) :
    (s.nested schema excludes more row relation).onMappings f
      = s.nested schema excludes levels row relation := by
  rw [nested, Cardinality.onMappings_nest, List.map_map, nested]
  congr 2
  exact funext h

/-- By induction on the level: above it both dumps link the same rows, and on it what is left is
the scalars. -/
theorem prune_dumpBelow (hd : schema.DistinctFrom e) (h : levels ≤ more) :
    schema.prune levels e (s.dumpBelow schema excludes more e row)
      = s.dumpBelow schema excludes levels e row := by
  have hdistinct := hd e (.stay e)
  induction levels generalizing e row more with
  | zero =>
    apply FieldMap.ext_get?
    intro name
    rw [Schema.prune, FieldMap.get?_filterMap, dumpBelow_zero]
    cases hr : e.relation? name with
    | none =>
      have hname := hdistinct.relation?_eq_none_iff.mp hr
      rw [get?_dumpBelow_of_notMem_relations (.inr hname)]
      simp
    | some relation =>
      have hname := hdistinct.notMem_scalars (hdistinct.relation?_eq_some_iff.mp hr)
      rw [Entity.get?_scalarPart_of_notMem (.inl hname)]
      simp
  | succ levels ih =>
    obtain ⟨more, rfl⟩ : ∃ deeper, more = deeper + 1 := ⟨more - 1, by omega⟩
    apply FieldMap.ext_get?
    intro name
    rw [Schema.prune, FieldMap.get?_filterMap]
    cases hr : e.relation? name with
    | none =>
      have hname := hdistinct.relation?_eq_none_iff.mp hr
      rw [get?_dumpBelow_of_notMem_relations (.inr hname),
        get?_dumpBelow_of_notMem_relations (.inr hname)]
      simp
    | some relation =>
      have hmem := hdistinct.relation?_eq_some_iff.mp hr
      by_cases hx : name ∈ excludes
      · rw [get?_dumpBelow_of_notMem (.inl hx), get?_dumpBelow_of_notMem (.inl hx)]
        rfl
      · have hbelow := hd.target hmem
        rw [get?_dumpBelow_relation hdistinct hmem hx, get?_dumpBelow_relation hdistinct hmem hx]
        refine congrArg some (onMappings_nested _ fun other => ?_)
        exact ih hbelow (by omega) (hbelow _ (.stay _))

theorem mem_keys_dumpBelow (hd : e.Distinct) :
    name ∈ (s.dumpBelow schema excludes levels e row).keys ↔ name ∉ excludes ∧
      (name ∈ e.scalars.map Prod.fst ∨ 0 < levels ∧ name ∈ e.relations.map Prod.fst) := by
  rw [FieldMap.mem_keys]
  constructor
  · intro h
    by_contra hnot
    rw [get?_dumpBelow_of_notMem] at h
    · cases h
    · have hlevels : levels = 0 ∨ 0 < levels := Nat.eq_zero_or_pos levels
      tauto
  · rintro ⟨hx, hs | ⟨hlevels, hr⟩⟩
    · obtain ⟨⟨_, kind⟩, hm, rfl⟩ := List.mem_map.mp hs
      rw [get?_dumpBelow_scalar hd hm hx]
      rfl
    · obtain ⟨⟨_, relation⟩, hm, rfl⟩ := List.mem_map.mp hr
      obtain ⟨fewer, rfl⟩ : ∃ fewer, levels = fewer + 1 := ⟨levels - 1, by omega⟩
      rw [get?_dumpBelow_relation hd hm hx]
      rfl

/-- The stored rows that a relationship links to a row, in the order of their insertion. -/
def linked (s : Store) (schema : Schema) (row : FieldMap) (relation : Relation) : List FieldMap :=
  (s.rows (schema.target relation).name).filter fun other => decide (relation.Links row other)

/-- The mapping has the scalars of the row, absent ones as null, and above the last level its
relationships, with the dumps of the rows linked to it. -/
structure Unfolds (s : Store) (schema : Schema) (excludes : List String) (depth : ℕ) (e : Entity)
    (row mapping : FieldMap) : Prop where
  keys : ∀ name, name ∈ mapping.keys ↔ name ∉ excludes ∧
    (name ∈ e.scalars.map Prod.fst ∨ 1 < depth ∧ name ∈ e.relations.map Prod.fst)
  scalars : ∀ scalar ∈ e.scalars, scalar.1 ∉ excludes →
    mapping.get? scalar.1 = some ((row.get? scalar.1).getD .null)
  many : 1 < depth → ∀ r ∈ e.relations, r.1 ∉ excludes → r.2.cardinality = .many →
    mapping.get? r.1 = some (.list ((s.linked schema row r.2).map fun other =>
      (s.dump schema (schema.target r.2) other (depth - 1) excludes).toValue))
  one : 1 < depth → ∀ r ∈ e.relations, r.1 ∉ excludes → r.2.cardinality = .one →
    mapping.get? r.1 = some (((s.linked schema row r.2).head?.map fun other =>
      (s.dump schema (schema.target r.2) other (depth - 1) excludes).toValue).getD .null)

theorem unfolds_dump (hd : e.Distinct) (depth : ℕ) :
    s.Unfolds schema excludes depth e row (s.dump schema e row depth excludes) := by
  have hnested : 1 < depth → ∀ r ∈ e.relations, r.1 ∉ excludes →
      (s.dump schema e row depth excludes).get? r.1
        = some (r.2.cardinality.nest ((s.linked schema row r.2).map fun other =>
            s.dump schema (schema.target r.2) other (depth - 1) excludes)) := by
    intro hdepth r hr hx
    obtain ⟨levels, rfl⟩ : ∃ levels, depth = levels + 2 := ⟨depth - 2, by omega⟩
    exact (get?_dumpBelow_relation hd hr hx).trans (by rw [nested, related_eq]; rfl)
  constructor
  · intro name
    rw [dump_eq, mem_keys_dumpBelow hd, Nat.sub_pos_iff_lt]
  · exact fun scalar hs hx => get?_dumpBelow_scalar hd hs hx
  · intro hdepth r hr hx hc
    rw [hnested hdepth r hr hx, hc, Cardinality.nest, List.map_map]
    rfl
  · intro hdepth r hr hx hc
    rw [hnested hdepth r hr hx, hc, Cardinality.nest, List.head?_map, Option.map_map]
    rfl

/-- Where attributes have names of their own, a dump unfolds the rows below a row down to its
depth, at every level, and the dumps of smaller depth are the ones it is pruned to. -/
theorem dump_unfolds (hd : schema.DistinctFrom e) (s : Store) (excludes : List String) :
    (∀ f, schema.Leads e f → ∀ row depth,
        s.Unfolds schema excludes depth f row (s.dump schema f row depth excludes)) ∧
      (∀ row d d', 1 ≤ d → d ≤ d' →
        schema.prune (d - 1) e (s.dump schema e row d' excludes)
          = s.dump schema e row d excludes) ∧
      ∀ row, s.dump schema e row 0 excludes = s.dump schema e row 1 excludes :=
  ⟨fun f h _ depth => unfolds_dump (hd f h) depth,
    fun _ _ _ _ h => prune_dumpBelow hd (Nat.sub_le_sub_right h 1), fun _ => rfl⟩

end Store

namespace Specimen

/-- A node, two below it, and one without a name below one of these. -/
def tree : Store :=
  ⟨[("Node",
      [.ofEntries [("id", .uint 1), ("name", .text "root"), ("parent_id", .null)],
        .ofEntries [("id", .uint 2), ("name", .text "left"), ("parent_id", .int 1)],
        .ofEntries [("id", .uint 3), ("name", .text "right"), ("parent_id", .uint 1)],
        .ofEntries [("id", .uint 4), ("parent_id", .uint 2)]])]⟩

/-- The second node, as a row and as a mapping of two levels. -/
def left : FieldMap :=
  .ofEntries [("id", .uint 2), ("name", .text "left"), ("parent_id", .int 1)]

def leftDump : FieldMap :=
  .ofEntries [("id", .uint 2), ("name", .text "left"),
    ("parent", (FieldMap.ofEntries [("id", .uint 1), ("name", .text "root")]).toValue),
    ("children", .list [(FieldMap.ofEntries [("id", .uint 4), ("name", .null)]).toValue])]

end Specimen

namespace Store

open Specimen in
/-- Nodes lead back to themselves, and their parents' keys are left out at every level. -/
theorem dump_unfolds_left :
    schema.DistinctFrom node ∧
      tree.Unfolds schema ["parent_id"] 2 node left (tree.dump schema node left 2 ["parent_id"]) ∧
      schema.prune 1 node (tree.dump schema node left 4 ["parent_id"])
        = tree.dump schema node left 2 ["parent_id"] ∧
      tree.dump schema node left 2 ["parent_id"] = leftDump := by
  have hnode : ∀ {e f : Entity}, schema.Leads e f → e = node → f = node := by
    intro e f h
    induction h with
    | stay _ => exact id
    | relation hr _ ih =>
      rintro rfl
      have htargets : ∀ r ∈ node.relations, schema.target r.2 = node := by decide +kernel
      exact ih (htargets _ hr)
  have hd : schema.DistinctFrom node := by
    intro f h
    rw [hnode h rfl]
    decide
  obtain ⟨hunfolds, hprune, -⟩ := dump_unfolds hd tree ["parent_id"]
  exact ⟨hd, hunfolds node (.stay node) left 2, hprune left 2 4 (by decide) (by decide),
    by decide +kernel⟩

end Store

end PathQuery
