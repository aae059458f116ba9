import PathQuery.Proofs.Precedence
import PathQuery.Proofs.Unfolding

/-! Loading a loaded row. A loaded row is a mapping of scalars, so a second load only lays it over
the row that it starts from. That is the row of the first load, since foreign keys, which nested
rows may have changed, are no part of the primary key, and the loaded row has a value wherever the
stored one has: laid over it, it is all that is left. -/

namespace PathQuery

namespace Store

/-- The row has values for scalars only, and for every attribute of the row that a load of it
starts from. -/
structure Settled (s : Store) (e : Entity) (row : FieldMap) : Prop where
  scalars : ∀ name ∈ row.keys, name ∈ e.scalars.map Prod.fst
  covers : ∀ name ∈ (s.base e row).keys, name ∈ row.keys

variable {s : Store} {schema : Schema} {hard : Bool} {e : Entity} {mapping row : FieldMap}
  {name : String}

/-- A settled row is loaded as it is. -/
theorem load_of_settled (hd : e.Distinct) (h : s.Settled e row) :
    s.load schema false e row = .ok row := by
  have habsent : ∀ r ∈ e.relations, row.get? r.1 = none := by
    intro r hr
    have hname := hd.notMem_scalars hr
    have hkey : r.1 ∉ row.keys := fun hm => hname (h.scalars r.1 hm)
    rwa [FieldMap.mem_keys, Option.not_isSome_iff_eq_none] at hkey
  have hfits : Fits schema false e row := by
    refine .intro (by simp) (by simp) fun r hr value hvalue => ?_
    rw [habsent r hr] at hvalue
    cases hvalue
  obtain ⟨again, hagain⟩ := (exists_load_iff_fits (s := s)).mpr hfits
  have hoverlay := hagain
  rw [load_of_all_absent habsent] at hoverlay
  obtain ⟨-, -, hoverlay⟩ := bind_eq_ok.mp hoverlay
  have hsame : again = row := by
    apply FieldMap.ext_get?
    intro name
    rw [Entity.get?_overlay hoverlay]
    cases hvalue : row.get? name with
    | some value =>
      have hscalar := h.scalars name (FieldMap.mem_keys.mpr (by rw [hvalue]; rfl))
      rw [if_pos hscalar, Option.some_or]
    | none =>
      have hbase : (s.base e row).get? name = none := by
        rw [← Option.not_isSome_iff_eq_none, ← FieldMap.mem_keys]
        intro hm
        have hkey := FieldMap.mem_keys.mp (h.covers name hm)
        rw [hvalue] at hkey
        cases hkey
      rw [hbase, Option.or_none, ite_self]
  rw [hagain, hsame]

/-! ### Loaded rows are settled -/

/-- No nested row gives a value that is no foreign key. -/
theorem filterMap_given?_eq_nil
    (h : ∀ r ∈ e.relations, r.2.cardinality = .one → r.2.localKey ≠ name) :
    e.relations.filterMap (s.given? schema hard mapping name) = [] := by
  rw [List.filterMap_eq_nil_iff]
  intro r hr
  by_cases hn : ∃ entries, mapping.Nested r entries
  · obtain ⟨entries, hn⟩ := hn
    rw [given?_of_nested hn, if_neg (h r hr hn.1)]
  · exact given?_of_not_nested (not_exists.mp hn)

theorem base_eq_empty_or_mem (s : Store) (e : Entity) (mapping : FieldMap) :
    s.base e mapping = ∅ ∨ s.base e mapping ∈ s.rows e.name := by
  rw [base]
  split
  · cases hfind : (s.rows e.name).find? fun other => decide (e.SameKey other mapping) with
    | none => exact .inl rfl
    | some stored => exact .inr (List.mem_of_find?_eq_some hfind)
  · exact .inl rfl

/-- A load leaves the primary key as the mapping has it. -/
theorem get?_load_of_mem_primaryKey (hk : ∀ name ∈ e.primaryKey, name ∈ e.scalars.map Prod.fst)
    (hl : ∀ r ∈ e.relations, r.2.cardinality = .one → r.2.localKey ∉ e.primaryKey)
    (h : s.load schema hard e mapping = .ok row) (hname : name ∈ e.primaryKey) :
    row.get? name = mapping.get? name := by
  have hnone : ∀ r ∈ e.relations, r.2.cardinality = .one → r.2.localKey ≠ name := by
    rintro r hr hc rfl
    exact hl r hr hc hname
  rw [get?_load h, filterMap_given?_eq_nil hnone, if_pos (hk name hname)]
  by_cases hkeyed : e.Keyed mapping
  · obtain ⟨value, hvalue, -⟩ := hkeyed name hname
    rw [hvalue]
    rfl
  · have hbase : s.base e mapping = ∅ := if_neg fun hboth => hkeyed hboth.2
    rw [hbase]
    exact Option.or_none

theorem settled_of_load (hk : ∀ name ∈ e.primaryKey, name ∈ e.scalars.map Prod.fst)
    (hl : ∀ r ∈ e.relations, r.2.cardinality = .one →
      r.2.localKey ∈ e.scalars.map Prod.fst ∧ r.2.localKey ∉ e.primaryKey)
    (hs : ∀ stored ∈ s.rows e.name, ∀ name ∈ stored.keys, name ∈ e.scalars.map Prod.fst)
    (h : s.load schema hard e mapping = .ok row) : s.Settled e row := by
  constructor
  · intro name hname
    by_contra hscalar
    have hnone : ∀ r ∈ e.relations, r.2.cardinality = .one → r.2.localKey ≠ name := by
      rintro r hr hc rfl
      exact hscalar (hl r hr hc).1
    have hbase : (s.base e mapping).get? name = none := by
      rcases base_eq_empty_or_mem s e mapping with hempty | hmem
      · rw [hempty]
        rfl
      · rw [← Option.not_isSome_iff_eq_none, ← FieldMap.mem_keys]
        exact fun hm => hscalar (hs _ hmem name hm)
    rw [FieldMap.mem_keys, get?_load h, filterMap_given?_eq_nil hnone, if_neg hscalar, hbase]
      at hname
    cases hname
  · have hkeys : ∀ name ∈ e.primaryKey, row.get? name = mapping.get? name :=
      fun name => get?_load_of_mem_primaryKey hk (fun r hr hc => (hl r hr hc).2) h
    intro name hname
    rw [base_congr hkeys, FieldMap.mem_keys] at hname
    rw [FieldMap.mem_keys, get?_load h, Option.isSome_or, Option.isSome_or, hname, Bool.or_true,
      Bool.or_true]

/-- A loaded row is loaded again as it is, when primary keys are scalars, single relationships have
scalars outside the primary key as their local keys, and stored rows have values for scalars
only. -/
theorem load_loaded (hd : e.Distinct)
    (hk : ∀ name ∈ e.primaryKey, name ∈ e.scalars.map Prod.fst)
    (hl : ∀ r ∈ e.relations, r.2.cardinality = .one →
      r.2.localKey ∈ e.scalars.map Prod.fst ∧ r.2.localKey ∉ e.primaryKey)
    (hs : ∀ stored ∈ s.rows e.name, ∀ name ∈ stored.keys, name ∈ e.scalars.map Prod.fst)
    (h : s.load schema false e mapping = .ok row) : s.load schema false e row = .ok row :=
  load_of_settled hd (settled_of_load hk hl hs h)

end Store

namespace Store

open Specimen in
/-- The visit has taken over the key of a status. -/
theorem load_loaded_visit :
    visit.Distinct ∧ (∀ name ∈ visit.primaryKey, name ∈ visit.scalars.map Prod.fst) ∧
      (∀ r ∈ visit.relations, r.2.cardinality = .one →
        r.2.localKey ∈ visit.scalars.map Prod.fst ∧ r.2.localKey ∉ visit.primaryKey) ∧
      (∀ stored ∈ visits.rows visit.name, ∀ name ∈ stored.keys,
        name ∈ visit.scalars.map Prod.fst) ∧
      visits.load schema false visit visited = .ok visitRow ∧
      visits.load schema false visit visitRow = .ok visitRow ∧
      visits.base visit visitRow ≠ visitRow := by
  have hd : visit.Distinct := by decide
  have hk : ∀ name ∈ visit.primaryKey, name ∈ visit.scalars.map Prod.fst := by decide
  have hl : ∀ r ∈ visit.relations, r.2.cardinality = .one →
      r.2.localKey ∈ visit.scalars.map Prod.fst ∧ r.2.localKey ∉ visit.primaryKey := by decide
  have hs : ∀ stored ∈ visits.rows visit.name, ∀ name ∈ stored.keys,
      name ∈ visit.scalars.map Prod.fst := by decide +kernel
  exact ⟨hd, hk, hl, hs, load_visited, load_loaded hd hk hl hs load_visited, by decide +kernel⟩

end Store

end PathQuery
