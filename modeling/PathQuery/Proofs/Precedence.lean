import PathQuery.Proofs.Acceptance

/-! Where the values of a loaded row come from. Three sources compete for an attribute: the stored
row of the mapping's key, the scalars of the mapping, and the rows of nested mappings, which give
their key. The stored row is written over by the scalars and these by the nested rows, one
relationship after another, so the last of them that gives a key decides. Nothing else in the
mapping has a say, lists of nested mappings included, and of the store only the rows that the
mapping and its nested mappings start from. -/

namespace PathQuery

/-! ### Writes -/

namespace FieldMap

theorem get?_adopt (row : FieldMap) (relation : Relation) (related : FieldMap)
    (name : String) : (row.adopt relation related).get? name
      = (if relation.localKey = name then related.get? relation.remoteKey else none).or
        (row.get? name) := by
  rw [adopt]
  cases related.get? relation.remoteKey with
  | none => simp
  | some key =>
    rw [get?_insert]
    by_cases h : name = relation.localKey
    · simp [h]
    · simp [h, Ne.symm h]

/-- The mapping has a nested mapping under a single relationship. -/
def Nested (mapping : FieldMap) (r : String × Relation) (entries : List (String × Value)) : Prop :=
  r.2.cardinality = .one ∧ mapping.get? r.1 = some (.map entries)

end FieldMap

/-- A scalar of the mapping, where it has one, is written over what the row had. -/
theorem Entity.get?_overlay {e : Entity} {hard : Bool} {mapping base row : FieldMap}
    {scalars : List (String × ScalarKind)} (h : e.overlay hard mapping scalars base = .ok row)
    (name : String) : row.get? name
      = (if name ∈ scalars.map Prod.fst then mapping.get? name else none).or
        (base.get? name) := by
  induction scalars generalizing base with
  | nil =>
    cases h
    simp
  | cons scalar scalars ih =>
    obtain ⟨key, kind⟩ := scalar
    rw [overlay] at h
    simp only [List.map_cons, List.mem_cons]
    cases hv : mapping.get? key with
    | none =>
      simp only [hv] at h
      split at h
      · cases h
      · rw [ih h]
        by_cases hname : name = key
        · simp [hname, hv]
        · simp only [hname, false_or]
    | some value =>
      simp only [hv] at h
      rw [ih h, FieldMap.get?_insert]
      by_cases hname : name = key
      · subst hname
        split <;> simp [hv]
      · simp only [hname, false_or, if_false]

/-- The mappings have the same primary key, the same scalars and the same nested mappings under
single relationships. -/
structure Entity.Agree (e : Entity) (mapping other : FieldMap) : Prop where
  key : ∀ name ∈ e.primaryKey, mapping.get? name = other.get? name
  scalars : ∀ name ∈ e.scalars.map Prod.fst, mapping.get? name = other.get? name
  nested : ∀ r ∈ e.relations, ∀ entries, mapping.Nested r entries ↔ other.Nested r entries

/-- The mapping of the other entity is that of the first, or nested in it under single
relationships, in any number of steps. -/
inductive Schema.Encloses (schema : Schema) : Entity → FieldMap → Entity → FieldMap → Prop
  | self (e : Entity) (mapping : FieldMap) : Encloses schema e mapping e mapping
  | nested {e f : Entity} {mapping inner : FieldMap} {r : String × Relation}
    {entries : List (String × Value)} (hr : r ∈ e.relations) (hn : mapping.Nested r entries)
    (h : Encloses schema (schema.target r.2) (.ofEntries entries) f inner) :
    Encloses schema e mapping f inner

namespace Store

/-! ### Starting rows -/

/-- The first stored row with the key of the mapping, when that is whole; else the empty row. -/
def base (s : Store) (e : Entity) (mapping : FieldMap) : FieldMap :=
  if e.primaryKey ≠ [] ∧ e.Keyed mapping then
    ((s.rows e.name).find? fun other => decide (e.SameKey other mapping)).getD ∅
  else ∅

variable {s t : Store} {schema : Schema} {hard hard' : Bool} {e f : Entity}
  {mapping other row row' loaded : FieldMap} {name : String} {r : String × Relation}
  {relations : List (String × Relation)} {entries : List (String × Value)}

theorem stored_eq_base (s : Store) (e : Entity) (mapping : FieldMap) :
    s.stored e mapping = s.base e mapping := by
  rw [base]
  split
  · next h => exact stored_of_keyed h.1 h.2
  · next h => exact stored_of_not_keyed (by tauto)

/-- Only the values of the primary key decide where a load starts. -/
theorem base_congr (h : ∀ name ∈ e.primaryKey, mapping.get? name = other.get? name) :
    s.base e mapping = s.base e other := by
  have hkeyed : e.Keyed mapping ↔ e.Keyed other :=
    forall₂_congr fun name hname => by rw [h name hname]
  have hsame : ∀ stored, e.SameKey stored mapping ↔ e.SameKey stored other :=
    fun stored => forall₂_congr fun name hname => by rw [h name hname]
  simp only [base, hkeyed, hsame]

/-! ### Keys that nested rows give -/

/-- The value that a relationship gives the row under a name: the remote key of its nested row,
when it is single, has this name as its local key, and is given as a mapping. -/
def given? (s : Store) (schema : Schema) (hard : Bool) (mapping : FieldMap) (name : String)
    (r : String × Relation) : Option Value :=
  match r.2.cardinality, mapping.get? r.1 with
  | .one, some (.map entries) =>
    if r.2.localKey = name then
      (s.load schema hard (schema.target r.2) (.ofEntries entries)).toOption.bind
        fun related => related.get? r.2.remoteKey
    else none
  | _, _ => none

theorem given?_of_nested (h : mapping.Nested r entries) :
    s.given? schema hard mapping name r = if r.2.localKey = name then
      (s.load schema hard (schema.target r.2) (.ofEntries entries)).toOption.bind
        fun related => related.get? r.2.remoteKey
    else none := by
  rw [given?, h.1, h.2]

theorem given?_of_not_nested (h : ∀ entries, ¬ mapping.Nested r entries) :
    s.given? schema hard mapping name r = none := by
  rw [given?]
  split
  · next hc hm => exact absurd ⟨hc, hm⟩ (h _)
  · rfl

/-- A relationship that has been gone through had a nested mapping, which was loaded and gave its
key, or it left the row alone. -/
theorem loadRelations_cons_cases
    (h : s.loadRelations schema hard e mapping (r :: relations) row = .ok loaded) :
    ((∀ entries, ¬ mapping.Nested r entries) ∧
        s.loadRelations schema hard e mapping relations row = .ok loaded) ∨
      ∃ entries related, mapping.Nested r entries ∧
        s.load schema hard (schema.target r.2) (.ofEntries entries) = .ok related ∧
        s.loadRelations schema hard e mapping relations (row.adopt r.2 related) = .ok loaded := by
  obtain ⟨key, relation⟩ := r
  cases hv : mapping.get? key with
  | none =>
    rw [loadRelations_of_absent hv] at h
    exact .inl ⟨fun entries hn => by simp [FieldMap.Nested, hv] at hn, h⟩
  | some value =>
    by_cases hnull : value = .null
    · subst hnull
      rw [loadRelations_of_null hv] at h
      exact .inl ⟨fun entries hn => by simp [FieldMap.Nested, hv] at hn, h⟩
    · cases hc : relation.cardinality with
      | one =>
        by_cases hmap : ∃ entries, value = .map entries
        · obtain ⟨entries, rfl⟩ := hmap
          rw [loadRelations_of_map hc hv] at h
          obtain ⟨related, hrelated, hrest⟩ := bind_eq_ok.mp h
          exact .inr ⟨entries, related, ⟨hc, hv⟩, hrelated, hrest⟩
        · rw [loadRelations_of_no_map hc hv hnull fun entries he => hmap ⟨entries, he⟩] at h
          cases h
      | many =>
        have hnot : ∀ entries, ¬ mapping.Nested (key, relation) entries := by
          rintro entries ⟨hone, -⟩
          cases hc.symm.trans hone
        by_cases hlist : ∃ items, value = .list items
        · obtain ⟨items, rfl⟩ := hlist
          rw [loadRelations_of_list hc hv] at h
          obtain ⟨-, -, hrest⟩ := bind_eq_ok.mp h
          exact .inl ⟨hnot, hrest⟩
        · rw [loadRelations_of_no_list hc hv hnull fun items hi => hlist ⟨items, hi⟩] at h
          cases h

theorem loadRelations_of_all_absent (h : ∀ r ∈ relations, mapping.get? r.1 = none) :
    s.loadRelations schema hard e mapping relations row = .ok row := by
  induction relations with
  | nil => exact loadRelations_nil
  | cons r relations ih =>
    obtain ⟨habsent, hrest⟩ := List.forall_mem_cons.mp h
    rw [loadRelations_of_absent habsent, ih hrest]

/-- By induction on the relationships: the last that gives a key decides. -/
theorem get?_loadRelations
    (h : s.loadRelations schema hard e mapping relations row = .ok loaded) (name : String) :
    loaded.get? name = (relations.filterMap (s.given? schema hard mapping name)).getLast?.or
      (row.get? name) := by
  induction relations generalizing row with
  | nil =>
    cases loadRelations_nil.symm.trans h
    simp
  | cons r relations ih =>
    rw [List.filterMap_cons]
    rcases loadRelations_cons_cases h with ⟨hnot, hrest⟩ | ⟨entries, related, hn, hrelated, hrest⟩
    · rw [given?_of_not_nested hnot, ih hrest]
    · rw [ih hrest, FieldMap.get?_adopt, given?_of_nested hn, hrelated, Except.toOption,
        Option.bind_some, ← Option.or_assoc]
      congr 1
      split
      · cases related.get? r.2.remoteKey with
        | none => simp
        | some key => simp [List.getLast?_cons]
      · simp

/-- Nested mappings of a mapping that loads are loaded too. -/
theorem exists_load_of_loadRelations
    (h : s.loadRelations schema hard e mapping relations row = .ok loaded) :
    ∀ r ∈ relations, ∀ entries, mapping.Nested r entries →
      ∃ related, s.load schema hard (schema.target r.2) (.ofEntries entries) = .ok related := by
  induction relations generalizing row with
  | nil => simp
  | cons r relations ih =>
    rcases loadRelations_cons_cases h with ⟨hnot, hrest⟩ | ⟨entries, related, hn, hrelated, hrest⟩
    · exact List.forall_mem_cons.mpr ⟨fun entries hn => absurd hn (hnot entries), ih hrest⟩
    · refine List.forall_mem_cons.mpr ⟨fun others hothers => ?_, ih hrest⟩
      cases hn.2.symm.trans hothers.2
      exact ⟨related, hrelated⟩

/-! ### Loaded rows -/

theorem load_eq_ok (h : s.load schema hard e mapping = .ok row) : ∃ filled,
    e.overlay hard mapping e.scalars (s.base e mapping) = .ok filled ∧
      s.loadRelations schema hard e mapping e.relations filled = .ok row := by
  rw [load_eq, stored_eq_base] at h
  obtain ⟨-, -, h⟩ := bind_eq_ok.mp h
  exact bind_eq_ok.mp h

/-- The last nested row that gives a key under the name, else the scalar of the mapping, else the
row that the load started from. -/
theorem get?_load (h : s.load schema hard e mapping = .ok row) (name : String) :
    row.get? name = (e.relations.filterMap (s.given? schema hard mapping name)).getLast?.or
      ((if name ∈ e.scalars.map Prod.fst then mapping.get? name else none).or
        ((s.base e mapping).get? name)) := by
  obtain ⟨filled, hfilled, hrow⟩ := load_eq_ok h
  rw [get?_loadRelations hrow, Entity.get?_overlay hfilled]

/-- A mapping of scalars is laid over the row that it starts from. -/
theorem load_of_all_absent (h : ∀ r ∈ e.relations, mapping.get? r.1 = none) :
    s.load schema hard e mapping = (do
      e.checkNames hard mapping
      e.overlay hard mapping e.scalars (s.base e mapping)) := by
  have hpure : ∀ x : Except LoadError FieldMap, (x >>= fun row => .ok row) = x :=
    fun x => by cases x <;> rfl
  rw [load_eq, stored_eq_base]
  simp only [loadRelations_of_all_absent h, hpure]

theorem exists_load_of_nested (h : s.load schema hard e mapping = .ok row)
    (hr : r ∈ e.relations) (hn : mapping.Nested r entries) :
    ∃ related, s.load schema hard (schema.target r.2) (.ofEntries entries) = .ok related := by
  obtain ⟨filled, -, hrow⟩ := load_eq_ok h
  exact exists_load_of_loadRelations hrow r hr entries hn

theorem given?_congr (h : e.Agree mapping other) (hr : r ∈ e.relations) (name : String) :
    s.given? schema hard mapping name r = s.given? schema hard other name r := by
  by_cases hn : ∃ entries, mapping.Nested r entries
  · obtain ⟨entries, hn⟩ := hn
    rw [given?_of_nested hn, given?_of_nested ((h.nested r hr entries).mp hn)]
  · rw [not_exists] at hn
    have hn' := fun entries => (h.nested r hr entries).not.mp (hn entries)
    rw [given?_of_not_nested hn, given?_of_not_nested hn']

/-- What the mappings do not agree on leaves no trace. -/
theorem row_eq_of_agree (h : e.Agree mapping other)
    (hrow : s.load schema hard e mapping = .ok row)
    (hrow' : s.load schema hard e other = .ok row') : row' = row := by
  apply FieldMap.ext_get?
  intro name
  have hgiven : e.relations.filterMap (s.given? schema hard other name)
      = e.relations.filterMap (s.given? schema hard mapping name) :=
    List.filterMap_congr fun r hr => (given?_congr h hr name).symm
  rw [get?_load hrow, get?_load hrow', hgiven, base_congr h.key]
  congr 2
  split
  · next hname => rw [h.scalars name hname]
  · rfl

/-- By induction on the depth of the mapping: stores that give the same rows to start from load
the same row, hard or not. -/
theorem row_eq_of_base
    (hb : ∀ f inner, schema.Encloses e mapping f inner → t.base f inner = s.base f inner)
    (hs : s.load schema hard e mapping = .ok row)
    (ht : t.load schema hard' e mapping = .ok row') : row' = row := by
  generalize hd : mapping.depth = d
  induction d using Nat.strongRecOn generalizing e mapping row row' with
  | ind d ih =>
    subst hd
    apply FieldMap.ext_get?
    intro name
    have hgiven : e.relations.filterMap (t.given? schema hard' mapping name)
        = e.relations.filterMap (s.given? schema hard mapping name) := by
      apply List.filterMap_congr
      intro r hr
      by_cases hn : ∃ entries, mapping.Nested r entries
      · obtain ⟨entries, hn⟩ := hn
        obtain ⟨related, hrelated⟩ := exists_load_of_nested hs hr hn
        obtain ⟨related', hrelated'⟩ := exists_load_of_nested ht hr hn
        have heq : related' = related :=
          ih _ (FieldMap.depth_ofEntries_lt hn.2) (fun f inner h => hb f inner (.nested hr hn h))
            hrelated hrelated' rfl
        rw [given?_of_nested hn, given?_of_nested hn, hrelated, hrelated', heq]
      · rw [not_exists] at hn
        rw [given?_of_not_nested hn, given?_of_not_nested hn]
    rw [get?_load hs, get?_load ht, hgiven, hb e mapping (.self e mapping)]

/-- A loaded row has, under each name, the key of the last nested row that gives one, else the
scalar of the mapping, else what the row of the mapping's key has. Nested mappings were loaded,
nothing else in the mapping leaves a trace, and any store that gives the mapping and its nested
mappings the same rows to start from loads the same row. -/
theorem load_sources (h : s.load schema hard e mapping = .ok row) :
    (∀ name, row.get? name
      = (e.relations.filterMap (s.given? schema hard mapping name)).getLast?.or
        ((if name ∈ e.scalars.map Prod.fst then mapping.get? name else none).or
          ((s.base e mapping).get? name))) ∧
      (∀ r ∈ e.relations, ∀ entries, mapping.Nested r entries → ∃ related,
        s.load schema hard (schema.target r.2) (.ofEntries entries) = .ok related) ∧
      (∀ other row', e.Agree mapping other → s.load schema hard e other = .ok row' →
        row' = row) ∧
      ∀ t : Store, (∀ f inner, schema.Encloses e mapping f inner →
          t.base f inner = s.base f inner) →
        t.load schema hard e mapping = .ok row ∧
          ∀ hard' row', t.load schema hard' e mapping = .ok row' → row' = row := by
  refine ⟨get?_load h, fun r hr entries hn => exists_load_of_nested h hr hn,
    fun other row' ha h' => row_eq_of_agree ha h h', fun t hb => ?_⟩
  have hfits := exists_load_iff_fits.mp ⟨row, h⟩
  obtain ⟨row', hrow'⟩ := (exists_load_iff_fits (s := t)).mpr hfits
  refine ⟨?_, fun _ _ => row_eq_of_base hb h⟩
  rw [hrow', row_eq_of_base hb h hrow']

end Store

namespace Specimen

open Attribute (scalar toOne toMany)

/-- A visit has a status before it and one after it, and room for the key of one of them. -/
def visit : Entity :=
  ⟨"specimen.Visit", "Visit", "visit", ["id"],
    [scalar "id" .uint, scalar "note" .text, scalar "status_id" .uint,
      toOne "before" "Status" "status_id" "id", toOne "after" "Status" "status_id" "id",
      toMany "treatments" "Treatment" "id" "status_id"]⟩

def visits : Store :=
  ⟨[("Visit", [.ofEntries [("id", .uint 1), ("note", .text "late"), ("status_id", .uint 9)]]),
    ("Status", [.ofEntries [("id", .uint 3), ("name", .text "ok"), ("category_id", .uint 5)]])]⟩

/-- The status after the visit has no key of its own yet. -/
def visited : FieldMap :=
  .ofEntries [("id", .int 1), ("status_id", .uint 8), ("before", .map [("id", .int 3)]),
    ("after", .map [("name", .text "new")]), ("treatments", .list [.map [("id", .uint 7)]])]

/-- The same visit by other words: nothing under the list, and a name that is no attribute. -/
def revisited : FieldMap :=
  .ofEntries [("id", .int 1), ("status_id", .uint 8), ("before", .map [("id", .int 3)]),
    ("after", .map [("name", .text "new")]), ("treatments", .null), ("room", .text "b")]

def visitRow : FieldMap :=
  .ofEntries [("id", .int 1), ("note", .text "late"), ("status_id", .int 3)]

end Specimen

namespace Store

open Specimen in
/-- The status before the visit gives its key, and the one after it has none to give. -/
theorem load_visited : visits.load schema false visit visited = .ok visitRow := by
  have hbefore : visits.load schema false status (.ofEntries [("id", .int 3)])
      = .ok (.ofEntries [("id", .int 3), ("name", .text "ok"), ("category_id", .uint 5)]) := by
    rw [load_of_all_absent (by decide +kernel)]
    decide +kernel
  have hafter : visits.load schema false status (.ofEntries [("name", .text "new")])
      = .ok (.ofEntries [("name", .text "new")]) := by
    rw [load_of_all_absent (by decide +kernel)]
    decide +kernel
  have htreatment : visits.load schema false treatment (.ofEntries [("id", .uint 7)])
      = .ok (.ofEntries [("id", .uint 7)]) := by
    rw [load_of_all_absent (by decide +kernel)]
    decide +kernel
  have hfilled : visit.overlay false visited visit.scalars (visits.base visit visited)
      = .ok (visitRow.insert "status_id" (.uint 8)) := by decide +kernel
  have hmap : visited.get? "before" = some (.map [("id", .int 3)]) := by decide +kernel
  have hmap' : visited.get? "after" = some (.map [("name", .text "new")]) := by decide +kernel
  have hlist : visited.get? "treatments" = some (.list [.map [("id", .uint 7)]]) := by
    decide +kernel
  rw [load_eq, stored_eq_base]
  refine bind_eq_ok.mpr ⟨(), rfl, bind_eq_ok.mpr ⟨_, hfilled, ?_⟩⟩
  change visits.loadRelations schema false visit visited
    [("before", ⟨"Status", .one, "status_id", "id"⟩),
      ("after", ⟨"Status", .one, "status_id", "id"⟩),
      ("treatments", ⟨"Treatment", .many, "id", "status_id"⟩)] _ = _
  rw [loadRelations_of_map rfl hmap]
  refine bind_eq_ok.mpr ⟨_, hbefore, ?_⟩
  rw [loadRelations_of_map rfl hmap']
  refine bind_eq_ok.mpr ⟨_, hafter, ?_⟩
  rw [loadRelations_of_list rfl hlist, loadItems_cons_map, loadItems_nil, loadRelations_nil]
  exact bind_eq_ok.mpr ⟨(), bind_eq_ok.mpr ⟨_, htreatment, rfl⟩, by decide +kernel⟩

open Specimen in
/-- The key of the status before the visit stands over that of the mapping and the stored one; the
list and the unknown name leave no trace. -/
theorem load_sources_visit :
    visits.load schema false visit visited = .ok visitRow ∧
      (∀ name, visitRow.get? name
        = (visit.relations.filterMap (visits.given? schema false visited name)).getLast?.or
          ((if name ∈ visit.scalars.map Prod.fst then visited.get? name else none).or
            ((visits.base visit visited).get? name))) ∧
      visit.Agree visited revisited ∧
      (∀ row, visits.load schema false visit revisited = .ok row → row = visitRow) ∧
      visitRow.get? "status_id" = some (.int 3) ∧ visited.get? "status_id" = some (.uint 8) ∧
      (visits.base visit visited).get? "status_id" = some (.uint 9) := by
  have hagree : visit.Agree visited revisited := by
    refine ⟨by decide +kernel, by decide +kernel, fun r hr entries => ?_⟩
    have hsingle : ∀ r ∈ visit.relations, r.2.cardinality = .one →
        visited.get? r.1 = revisited.get? r.1 := by decide +kernel
    exact and_congr_right fun hc => by rw [hsingle r hr hc]
  obtain ⟨hvalues, -, hother, -⟩ := load_sources load_visited
  exact ⟨load_visited, hvalues, hagree, fun row => hother revisited row hagree, by decide +kernel,
    by decide +kernel, by decide +kernel⟩

end Store

end PathQuery
