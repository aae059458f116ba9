import Mathlib.Data.List.Nodup
import PathQuery.Graph.Dump
import PathQuery.Proofs.NestedLoop

/-! What a dump holds under each name. A level is made of insertions, one for each scalar and,
while levels remain, one for each relationship. Where attributes have names of their own, the
insertions do not meet, so each name can be read off: a scalar has the value of the row or null,
a relationship the dumps of the rows it links to, in the order in which they are stored. -/

namespace PathQuery

namespace FieldMap

variable {α : Type} {row : FieldMap} {name : String} {f : String × α → Value}

/-- Insertions under other names leave a name alone. -/
theorem get?_foldl_insert_of_notMem {pairs : List (String × α)}
    (h : name ∉ pairs.map Prod.fst) :
    (pairs.foldl (fun m p => m.insert p.1 (f p)) row).get? name = row.get? name := by
  induction pairs generalizing row with
  | nil => rfl
  | cons p pairs ih =>
    rw [List.map_cons, List.mem_cons, not_or] at h
    rw [List.foldl_cons, ih h.2, get?_insert, if_neg h.1]

/-- A name under which all insertions put one value has that value. -/
theorem get?_foldl_insert_of_mem {pairs : List (String × α)} {p : String × α} (h : p ∈ pairs)
    (hf : ∀ q ∈ pairs, q.1 = p.1 → f q = f p) :
    (pairs.foldl (fun m p => m.insert p.1 (f p)) row).get? p.1 = some (f p) := by
  induction pairs generalizing row p with
  | nil => cases h
  | cons q pairs ih =>
    rw [List.foldl_cons]
    by_cases hm : p.1 ∈ pairs.map Prod.fst
    · obtain ⟨r, hr, hname⟩ := List.mem_map.mp hm
      have hvalue := hf r (List.mem_cons_of_mem _ hr) hname
      rw [← hname, ← hvalue]
      apply ih hr
      intro t ht htr
      rw [hf t (List.mem_cons_of_mem _ ht) (htr.trans hname), hvalue]
    · rcases List.mem_cons.mp h with rfl | h
      · rw [get?_foldl_insert_of_notMem hm, get?_insert, if_pos rfl]
      · exact absurd (List.mem_map.mpr ⟨p, h, rfl⟩) hm

end FieldMap

namespace Entity

/-- Each attribute has a name of its own. -/
def Distinct (e : Entity) : Prop := (e.attributes.map Attribute.name).Nodup

instance (e : Entity) : Decidable e.Distinct :=
  inferInstanceAs (Decidable (e.attributes.map Attribute.name).Nodup)

variable {e : Entity} {name : String} {kind : ScalarKind} {relation : Relation}
  {excludes : List String} {row : FieldMap}

theorem Distinct.eq_of_name (h : e.Distinct) {a b : Attribute} (ha : a ∈ e.attributes)
    (hb : b ∈ e.attributes) (hn : a.name = b.name) : a = b :=
  List.inj_on_of_nodup_map h ha hb hn

/-- No scalar goes by the name of a relationship. -/
theorem Distinct.notMem_relations (h : e.Distinct) (hs : (name, kind) ∈ e.scalars) :
    name ∉ e.relations.map Prod.fst := by
  intro hr
  obtain ⟨⟨_, relation⟩, hm, rfl⟩ := List.mem_map.mp hr
  cases h.eq_of_name (mem_scalars.mp hs) (mem_relations.mp hm) rfl

theorem Distinct.notMem_scalars (h : e.Distinct) (hr : (name, relation) ∈ e.relations) :
    name ∉ e.scalars.map Prod.fst := by
  intro hs
  obtain ⟨⟨_, kind⟩, hm, rfl⟩ := List.mem_map.mp hs
  exact h.notMem_relations hm (List.mem_map.mpr ⟨_, hr, rfl⟩)

/-- The scalar part has every scalar that is not excluded, absent ones as null. -/
theorem get?_scalarPart (hs : (name, kind) ∈ e.scalars) (hx : name ∉ excludes) :
    (e.scalarPart excludes row).get? name = some ((row.get? name).getD .null) := by
  apply FieldMap.get?_foldl_insert_of_mem (p := (name, kind))
  · simp [hs, hx]
  · intro q _ hq
    rw [hq]

theorem get?_scalarPart_of_notMem (h : name ∉ e.scalars.map Prod.fst ∨ name ∈ excludes) :
    (e.scalarPart excludes row).get? name = none := by
  apply FieldMap.get?_foldl_insert_of_notMem
  intro hm
  obtain ⟨scalar, hscalar, rfl⟩ := List.mem_map.mp hm
  obtain ⟨hmem, hx⟩ := List.mem_filter.mp hscalar
  rcases h with h | h
  · exact h (List.mem_map.mpr ⟨scalar, hmem, rfl⟩)
  · simp [h] at hx

end Entity

namespace Store

/-- The rows that a relationship leads to. -/
def related (s : Store) (schema : Schema) (row : FieldMap) (relation : Relation) :
    List FieldMap :=
  Id.run (s.backend.related schema row relation)

/-- The mapping of a row with some levels below it. -/
def dumpBelow (s : Store) (schema : Schema) (excludes : List String) (levels : ℕ) (e : Entity)
    (row : FieldMap) : FieldMap :=
  Id.run (s.backend.dumpBelow schema excludes levels e row)

/-- What stands under a relationship that has some levels below it. -/
def nested (s : Store) (schema : Schema) (excludes : List String) (levels : ℕ) (row : FieldMap)
    (relation : Relation) : Value :=
  relation.cardinality.nest ((s.related schema row relation).map
    (s.dumpBelow schema excludes levels (schema.target relation)))

variable {s : Store} {schema : Schema} {excludes : List String} {levels : ℕ} {e : Entity}
  {row : FieldMap} {name : String} {kind : ScalarKind} {relation : Relation}

theorem lookup_eq (s : Store) (e : Entity) (field : String) (value : Value) :
    Id.run (s.backend.lookup e field value)
      = (s.rows e.name).filter fun row => (row.get? field).any fun v => v.equals value := by
  have h := s.execute_of_no_joins (p := Plan.lookup e field value) rfl
  refine h.trans (List.filter_congr fun row _ => ?_)
  simp [Plan.lookup, Plan.push, Plan.all, Expr.holds, Column.read, Column.root, rootSlot,
    CompareOp.holds, Value.equals]

theorem related_eq (s : Store) (schema : Schema) (row : FieldMap) (relation : Relation) :
    s.related schema row relation
      = (s.rows (schema.target relation).name).filter fun other =>
        decide (relation.Links row other) := by
  unfold related Backend.related
  cases hkey : row.get? relation.localKey with
  | none =>
    have hnone : ∀ other, ¬ relation.Links row other := by
      rintro other ⟨a, b, ha, -⟩
      cases hkey.symm.trans ha
    simp only [hnone, decide_false, List.filter_false]
    rfl
  | some key =>
    have hlinks : ∀ other, (other.get? relation.remoteKey).any (fun v => v.equals key)
        = decide (relation.Links row other) := by
      intro other
      rw [Bool.eq_iff_iff, decide_eq_true_iff, Relation.links_iff, hkey]
      simp only [Option.any_some, Value.equals, Value.equal?_comm key]
    have hlookup := lookup_eq s (schema.target relation) relation.remoteKey key
    simp only [hlinks] at hlookup
    cases hnull : key.isNull with
    | false =>
      simp only [hnull, Bool.false_eq_true, if_false]
      exact hlookup
    | true =>
      -- nothing equals null, so the rows need not be looked at
      have hnone : ∀ other, ¬ relation.Links row other := by
        rintro other ⟨a, b, ha, -, heq⟩
        cases hkey.symm.trans ha
        cases hnull.symm.trans (Value.isNull_of_equal? heq)
      simp only [hnull, if_true, hnone, decide_false, List.filter_false]
      rfl

theorem dump_eq (s : Store) (schema : Schema) (e : Entity) (row : FieldMap) (depth : ℕ)
    (excludes : List String) :
    s.dump schema e row depth excludes = s.dumpBelow schema excludes (depth - 1) e row := rfl

theorem dumpBelow_zero : s.dumpBelow schema excludes 0 e row = e.scalarPart excludes row := by
  rw [dumpBelow, Backend.dumpBelow]
  rfl

theorem dumpBelow_succ : s.dumpBelow schema excludes (levels + 1) e row
    = (e.relations.filter fun relation => !excludes.contains relation.1).foldl
      (fun m r => m.insert r.1 (s.nested schema excludes levels row r.2))
      (e.scalarPart excludes row) := by
  rw [dumpBelow, Backend.dumpBelow, List.idRun_foldlM]
  congr 1
  funext mapping r
  exact congrArg (fun nested => mapping.insert r.1 (r.2.cardinality.nest nested)) List.idRun_mapM

/-- What is no relationship that is dumped does not depend on the levels. -/
theorem get?_dumpBelow_of_notMem_relations
    (h : name ∈ excludes ∨ name ∉ e.relations.map Prod.fst) :
    (s.dumpBelow schema excludes levels e row).get? name
      = (e.scalarPart excludes row).get? name := by
  cases levels with
  | zero => rw [dumpBelow_zero]
  | succ levels =>
    rw [dumpBelow_succ, FieldMap.get?_foldl_insert_of_notMem]
    intro hm
    obtain ⟨r, hr, rfl⟩ := List.mem_map.mp hm
    obtain ⟨hmem, hx⟩ := List.mem_filter.mp hr
    rcases h with h | h
    · simp [h] at hx
    · exact h (List.mem_map.mpr ⟨r, hmem, rfl⟩)

/-- A scalar has the value of the row. -/
theorem get?_dumpBelow_scalar (hd : e.Distinct) (hs : (name, kind) ∈ e.scalars)
    (hx : name ∉ excludes) :
    (s.dumpBelow schema excludes levels e row).get? name
      = some ((row.get? name).getD .null) := by
  rw [get?_dumpBelow_of_notMem_relations (.inr (hd.notMem_relations hs)),
    Entity.get?_scalarPart hs hx]

/-- A relationship has the dumps of the rows it leads to, while levels remain. -/
theorem get?_dumpBelow_relation (hd : e.Distinct) (hr : (name, relation) ∈ e.relations)
    (hx : name ∉ excludes) :
    (s.dumpBelow schema excludes (levels + 1) e row).get? name
      = some (s.nested schema excludes levels row relation) := by
  rw [dumpBelow_succ]
  apply FieldMap.get?_foldl_insert_of_mem (p := (name, relation))
    (f := fun r => s.nested schema excludes levels row r.2)
  · simp [hr, hx]
  · intro q hq hname
    have hmem := List.mem_of_mem_filter hq
    cases hd.eq_of_name (Entity.mem_relations.mp hmem) (Entity.mem_relations.mp hr) hname
    rfl

/-- Nothing else has an entry. -/
theorem get?_dumpBelow_of_notMem (h : name ∈ excludes ∨
      name ∉ e.scalars.map Prod.fst ∧ (levels = 0 ∨ name ∉ e.relations.map Prod.fst)) :
    (s.dumpBelow schema excludes levels e row).get? name = none := by
  have hscalar : (e.scalarPart excludes row).get? name = none :=
    Entity.get?_scalarPart_of_notMem (by tauto)
  rcases h with h | ⟨-, rfl | h⟩
  · rw [get?_dumpBelow_of_notMem_relations (.inl h), hscalar]
  · rw [dumpBelow_zero, hscalar]
  · rw [get?_dumpBelow_of_notMem_relations (.inr h), hscalar]

end Store

end PathQuery
