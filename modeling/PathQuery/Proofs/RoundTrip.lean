import PathQuery.Proofs.Loading
import PathQuery.Proofs.Unfolding
import PathQuery.Specimen.Entities

/-! Dumps load back. A load writes into its row the scalars of the mapping and the keys of the
rows that it loads below. When the mapping is the dump of a stored row, every such write puts back
a value that the row has: scalars are copies, and a related row was found by a key equal to the
one it gives back. Equal keys are the same only while they are plain, so signed and unsigned
integers must not stand for one number, and doubles must not be keys. What was left out of the
dump comes from the stored row, which the primary key finds again. -/

namespace PathQuery

namespace Value

/-- Null, a truth value, a text, or an integer in one form: unsigned only above the signed ones. -/
def isPlain : Value → Bool
  | .null | .bool _ | .text _ | .int _ => true
  | .uint n => Int64.maxValue.toInt < n.toNat
  | _ => false

variable {a b : Value}

/-- Plain values that are equal are the same. -/
theorem eq_of_equal? (ha : a.isPlain = true) (hb : b.isPlain = true)
    (h : a.equal? b = some true) : a = b := by
  have hapart (n : Int64) (m : UInt64) (hm : (uint m).isPlain = true) :
      n.toInt ≠ (m.toNat : Int) := by
    have hmax : Int64.maxValue.toInt < m.toNat := by simpa [isPlain] using hm
    have hn := n.toInt_le
    omega
  cases a with
  | null => cases isNull_of_equal? h
  | bool x => cases b <;> simp_all [equal?, numeric?]
  | text x => cases b <;> simp_all [equal?, numeric?]
  | int n =>
    cases b with
    | int m => simpa [equal?, numeric?, Numeric.order?, Int64.toInt_inj] using h
    | uint m =>
      have heq : n.toInt = m.toNat := by simpa [equal?, numeric?, Numeric.order?] using h
      exact absurd heq (hapart n m hb)
    | float x => cases hb
    | _ => simp [equal?, numeric?] at h
  | uint n =>
    cases b with
    | int m =>
      have heq : (n.toNat : Int) = m.toInt := by simpa [equal?, numeric?, Numeric.order?] using h
      exact absurd heq.symm (hapart m n ha)
    | uint m =>
      have heq : (n.toNat : Int) = m.toNat := by simpa [equal?, numeric?, Numeric.order?] using h
      rw [UInt64.toNat_inj.mp (Int.ofNat_inj.mp heq)]
    | float x => cases hb
    | _ => simp [equal?, numeric?] at h
  | _ => cases ha

theorem equal?_self (ha : a.isPlain = true) (hn : a.isNull = false) :
    a.equal? a = some true := by
  cases a <;> simp_all [equal?, numeric?, Numeric.order?, isPlain, isNull]

end Value

/-! ### Writing values back -/

namespace FieldMap

/-- Every entry is one of the other row. -/
def Within (a b : FieldMap) : Prop :=
  ∀ name value, a.get? name = some value → b.get? name = some value

variable {a b c : FieldMap} {name : String} {value : Value}

theorem Within.refl (a : FieldMap) : a.Within a := fun _ _ h => h

theorem Within.trans (hab : a.Within b) (hbc : b.Within c) : a.Within c :=
  fun name value h => hbc name value (hab name value h)

theorem Within.antisymm (hab : a.Within b) (hba : b.Within a) : a = b := by
  ext name value
  exact ⟨hab name value, hba name value⟩

theorem empty_within (a : FieldMap) : (∅ : FieldMap).Within a := by
  intro name value h
  cases h

/-- Writing a value of `b` into a row within `b` gives a row between them. -/
theorem Within.insert (hab : a.Within b) (hv : b.get? name = some value) :
    a.Within (a.insert name value) ∧ (a.insert name value).Within b := by
  constructor
  · intro key other h
    rw [get?_insert]
    split
    · next heq =>
      subst heq
      rw [← hv, hab key other h]
    · exact h
  · intro key other h
    rw [get?_insert] at h
    split at h
    · next heq => rw [heq, hv, h]
    · exact hab key other h

end FieldMap

/-- Scalars that the mapping shares with a row are written back into part of it. -/
theorem Entity.overlay_restores {e : Entity} {hard : Bool} {mapping base row : FieldMap}
    {scalars : List (String × ScalarKind)}
    (hm : ∀ scalar ∈ scalars, ∀ value, mapping.get? scalar.1 = some value →
      row.get? scalar.1 = some value)
    (hhard : hard = true → ∀ scalar ∈ scalars, (mapping.get? scalar.1).isSome)
    (hb : base.Within row) :
    ∃ filled, e.overlay hard mapping scalars base = .ok filled ∧ base.Within filled ∧
      filled.Within row ∧ ∀ scalar ∈ scalars, ∀ value, mapping.get? scalar.1 = some value →
        filled.get? scalar.1 = some value := by
  induction scalars generalizing base with
  | nil => exact ⟨base, rfl, .refl base, hb, by simp⟩
  | cons scalar scalars ih =>
    obtain ⟨name, kind⟩ := scalar
    rw [List.forall_mem_cons] at hm
    have hrest := fun h => (List.forall_mem_cons.mp (hhard h)).2
    rw [overlay]
    cases hv : mapping.get? name with
    | none =>
      have hsoft : hard = false := by
        rw [Bool.eq_false_iff]
        intro h
        simpa [hv] using (List.forall_mem_cons.mp (hhard h)).1
      obtain ⟨filled, hok, hgrow, hwithin, hfilled⟩ := ih hm.2 hrest hb
      rw [hsoft] at hok ⊢
      refine ⟨filled, hok, hgrow, hwithin, List.forall_mem_cons.mpr ⟨?_, hfilled⟩⟩
      intro value h
      cases hv.symm.trans h
    | some value =>
      obtain ⟨hgrow, hwithin⟩ := hb.insert (hm.1 value hv)
      obtain ⟨filled, hok, hgrow', hwithin', hfilled⟩ := ih hm.2 hrest hwithin
      refine ⟨filled, hok, hgrow.trans hgrow', hwithin', List.forall_mem_cons.mpr ⟨?_, hfilled⟩⟩
      intro other h
      cases hv.symm.trans h
      exact hgrow' name value (by rw [FieldMap.get?_insert, if_pos rfl])

namespace Store

variable {s : Store} {schema : Schema} {hard : Bool} {e target : Entity}
  {mapping row base : FieldMap} {name : String} {relations : List (String × Relation)}

theorem loadItems_mappings {children : List FieldMap}
    (h : ∀ child ∈ children, ∃ related, s.load schema hard target child = .ok related) :
    s.loadItems schema hard e name target (children.map FieldMap.toValue) = .ok () := by
  induction children with
  | nil => exact loadItems_nil
  | cons child children ih =>
    rw [List.forall_mem_cons] at h
    obtain ⟨related, hrelated⟩ := h.1
    rw [List.map_cons, FieldMap.toValue, loadItems_cons_map, FieldMap.ofEntries_entries, hrelated]
    exact ih h.2

/-- What the mapping has under the relationship loads, and a related row has no other key than
the row. -/
def Returns (s : Store) (schema : Schema) (hard : Bool) (mapping row : FieldMap)
    (r : String × Relation) : Prop :=
  mapping.get? r.1 = none ∨ ∃ children, mapping.get? r.1 = some (r.2.cardinality.nest children) ∧
    ∀ child ∈ children, ∃ related, s.load schema hard (schema.target r.2) child = .ok related ∧
      ∀ key, related.get? r.2.remoteKey = some key → row.get? r.2.localKey = some key

theorem loadRelations_restores (h : ∀ r ∈ relations, s.Returns schema hard mapping row r)
    (hb : base.Within row) :
    ∃ loaded, s.loadRelations schema hard e mapping relations base = .ok loaded ∧
      base.Within loaded ∧ loaded.Within row := by
  induction relations generalizing base with
  | nil => exact ⟨base, loadRelations_nil, .refl base, hb⟩
  | cons r relations ih =>
    obtain ⟨name, relation⟩ := r
    rw [List.forall_mem_cons] at h
    obtain ⟨habsent | ⟨children, hvalue, hchildren⟩, hrest⟩ := h
    · rw [loadRelations_of_absent habsent]
      exact ih hrest hb
    · cases hc : relation.cardinality with
      | many =>
        rw [hc] at hvalue
        have hitems : s.loadItems schema hard e name (schema.target relation)
            (children.map FieldMap.toValue) = .ok () :=
          loadItems_mappings fun child hm => (hchildren child hm).imp fun _ => And.left
        rw [loadRelations_of_list hc hvalue, hitems]
        exact ih hrest hb
      | one =>
        rw [hc] at hvalue
        cases children with
        | nil =>
          rw [loadRelations_of_null hvalue]
          exact ih hrest hb
        | cons child children =>
          obtain ⟨related, hrelated, hkey⟩ := hchildren child List.mem_cons_self
          have hload : s.loadRelations schema hard e mapping ((name, relation) :: relations) base
              = s.loadRelations schema hard e mapping relations (base.adopt relation related) := by
            rw [loadRelations_of_map hc hvalue, FieldMap.ofEntries_entries, hrelated]
            rfl
          rw [hload, FieldMap.adopt]
          cases hr : related.get? relation.remoteKey with
          | none => exact ih hrest hb
          | some key =>
            obtain ⟨hgrow, hwithin⟩ := hb.insert (hkey key hr)
            obtain ⟨loaded, hok, hgrow', hwithin'⟩ := ih hrest hwithin
            exact ⟨loaded, hok, hgrow.trans hgrow', hwithin'⟩

end Store

/-! ### Entities and rows that go together -/

/-- Entities that relationships do not lead out of, one for each name, whose attributes have
names of their own and whose keys are scalars. -/
structure Schema.Closed (schema : Schema) (models : Set Entity) : Prop where
  target : ∀ e ∈ models, ∀ r ∈ e.relations, schema.target r.2 ∈ models
  unique : ∀ e ∈ models, ∀ f ∈ models, e.name = f.name → e = f
  distinct : ∀ e ∈ models, e.Distinct
  primaryKey : ∀ e ∈ models, ∀ name ∈ e.primaryKey, name ∈ e.scalars.map Prod.fst
  localKey : ∀ e ∈ models, ∀ r ∈ e.relations, r.2.localKey ∈ e.scalars.map Prod.fst
  remoteKey : ∀ e ∈ models, ∀ r ∈ e.relations,
    r.2.remoteKey ∈ (schema.target r.2).scalars.map Prod.fst

/-- The attribute is part of the primary key or links rows by some relationship. -/
def Schema.IsKey (schema : Schema) (models : Set Entity) (e : Entity) (name : String) : Prop :=
  name ∈ e.primaryKey ∨ (∃ r ∈ e.relations, r.2.localKey = name) ∨
    ∃ f ∈ models, ∃ r ∈ f.relations, schema.target r.2 = e ∧ r.2.remoteKey = name

/-- Every row has all scalars of its entity and nothing else, and its keys are plain. -/
structure Store.Plain (s : Store) (schema : Schema) (models : Set Entity) : Prop where
  scalars : ∀ e ∈ models, ∀ row ∈ s.rows e.name, ∀ name,
    name ∈ row.keys ↔ name ∈ e.scalars.map Prod.fst
  keys : ∀ e ∈ models, ∀ row ∈ s.rows e.name, ∀ name, schema.IsKey models e name →
    ∀ value, row.get? name = some value → value.isPlain = true

namespace Store

variable {s : Store} {schema : Schema} {models : Set Entity} {hard : Bool}
  {excludes : List String} {levels : ℕ} {e : Entity} {mapping row a b : FieldMap} {name : String}

/-- A mapping with the key of a stored row finds that row. -/
theorem stored_of_own_key (hk : s.KeysKept e) (hr : row ∈ s.rows e.name)
    (hplain : ∀ name ∈ e.primaryKey, ∀ value, row.get? name = some value → value.isPlain = true)
    (hm : ∀ name ∈ e.primaryKey, ∀ value, mapping.get? name = some value →
      row.get? name = some value)
    (hne : e.primaryKey ≠ []) (hkeyed : e.Keyed mapping) : s.stored e mapping = row := by
  have hown : e.SameKey row mapping := by
    intro name hname
    obtain ⟨value, hv, hnull⟩ := hkeyed name hname
    have hrow := hm name hname value hv
    exact ⟨value, value, hrow, hv, Value.equal?_self (hplain name hname value hrow) hnull⟩
  have hothers : ∀ other ∈ s.rows e.name, e.SameKey other mapping → other = row := by
    intro other ho h
    apply hk.eq_of_sameKey ho hr
    intro name hname
    obtain ⟨v, w, hv, hw, heq⟩ := h name hname
    exact ⟨v, w, hv, hm name hname w hw, heq⟩
  rw [stored_of_keyed hne hkeyed]
  cases hfind : (s.rows e.name).find? fun other => decide (e.SameKey other mapping) with
  | none => simpa [hown] using List.find?_eq_none.mp hfind row hr
  | some other =>
    have hsame : e.SameKey other mapping := by simpa using List.find?_some hfind
    exact hothers other (List.mem_of_find?_eq_some hfind) hsame

/-- The row that a mapping with part of the values of a stored row starts from. -/
theorem stored_within (hk : s.KeysKept e) (hr : row ∈ s.rows e.name)
    (hplain : ∀ name ∈ e.primaryKey, ∀ value, row.get? name = some value → value.isPlain = true)
    (hm : ∀ name ∈ e.primaryKey, ∀ value, mapping.get? name = some value →
      row.get? name = some value) : (s.stored e mapping).Within row := by
  by_cases h : e.primaryKey = [] ∨ ¬ e.Keyed mapping
  · rw [stored_of_not_keyed h]
    exact FieldMap.empty_within row
  · rw [not_or, not_not] at h
    rw [stored_of_own_key hk hr hplain hm h.1 h.2]
    exact .refl row

/-! ### Dumps of stored rows -/

/-- A dump has the scalars of a stored row as they are. -/
theorem get?_dumpBelow_stored (hc : schema.Closed models) (hp : s.Plain schema models)
    (he : e ∈ models) (hr : row ∈ s.rows e.name) (hs : name ∈ e.scalars.map Prod.fst) :
    (s.dumpBelow schema excludes levels e row).get? name
      = if name ∈ excludes then none else row.get? name := by
  split
  · next hx => exact get?_dumpBelow_of_notMem (.inl hx)
  · next hx =>
    have hkey := (hp.scalars e he row hr name).mpr hs
    obtain ⟨value, hvalue⟩ := Option.isSome_iff_exists.mp (FieldMap.mem_keys.mp hkey)
    obtain ⟨⟨_, kind⟩, hm, rfl⟩ := List.mem_map.mp hs
    rw [get?_dumpBelow_scalar (hc.distinct e he) hm hx, hvalue, Option.getD_some]

/-- A dump of everything has the names of attributes only. -/
theorem exists_attribute_of_mem_keys (h : name ∈ (s.dumpBelow schema excludes levels e row).keys) :
    ∃ a ∈ e.attributes, a.name = name := by
  by_contra hnone
  rw [FieldMap.mem_keys, get?_dumpBelow_of_notMem] at h
  · cases h
  · refine .inr ⟨fun hs => ?_, .inr fun hr => ?_⟩
    · obtain ⟨⟨_, kind⟩, hm, rfl⟩ := List.mem_map.mp hs
      exact hnone ⟨_, Entity.mem_scalars.mp hm, rfl⟩
    · obtain ⟨⟨_, relation⟩, hm, rfl⟩ := List.mem_map.mp hr
      exact hnone ⟨_, Entity.mem_relations.mp hm, rfl⟩

/-- Rows that a relationship links have one key. -/
theorem Plain.key_eq (hp : s.Plain schema models) (hc : schema.Closed models) (he : e ∈ models)
    (hr : row ∈ s.rows e.name) {r : String × Relation} (hm : r ∈ e.relations)
    (hb : b ∈ s.rows (schema.target r.2).name) (hl : r.2.Links row b) {key : Value}
    (hkey : b.get? r.2.remoteKey = some key) : row.get? r.2.localKey = some key := by
  obtain ⟨v, w, hv, hw, heq⟩ := hl
  cases hkey.symm.trans hw
  have hplain := hp.keys e he row hr _ (.inr (.inl ⟨r, hm, rfl⟩)) v hv
  have hplain' := hp.keys _ (hc.target e he r hm) b hb _ (.inr (.inr ⟨e, he, r, hm, rfl, rfl⟩)) _ hw
  rw [hv, Value.eq_of_equal? hplain hplain' heq]

/-- Every scalar that a dump has is the one of the stored row. -/
theorem get?_of_get?_dumpBelow (hc : schema.Closed models) (hp : s.Plain schema models)
    (he : e ∈ models) (hr : row ∈ s.rows e.name) (hs : name ∈ e.scalars.map Prod.fst)
    {value : Value} (h : (s.dumpBelow schema excludes levels e row).get? name = some value) :
    row.get? name = some value := by
  rw [get?_dumpBelow_stored hc hp he hr hs] at h
  split at h
  · cases h
  · exact h

/-- The mapping loads to a row between the one that the load starts from and the given one,
with all scalars that are not excluded. -/
def Restores (s : Store) (schema : Schema) (hard : Bool) (excludes : List String) (e : Entity)
    (mapping row : FieldMap) : Prop :=
  ∃ loaded, s.load schema hard e mapping = .ok loaded ∧
    (s.stored e mapping).Within loaded ∧ loaded.Within row ∧
      ∀ name ∈ e.scalars.map Prod.fst, name ∉ excludes → loaded.get? name = row.get? name

/-- The dump of a stored row restores it if its relationships return what they are of. -/
theorem restores_dumpBelow_of_returns (hc : schema.Closed models) (hk : s.KeysKept e)
    (hp : s.Plain schema models) (hx : hard = true → excludes = []) (he : e ∈ models)
    (hr : row ∈ s.rows e.name)
    (h : ∀ r ∈ e.relations,
      s.Returns schema hard (s.dumpBelow schema excludes levels e row) row r) :
    s.Restores schema hard excludes e (s.dumpBelow schema excludes levels e row) row := by
  have hscalar : ∀ name ∈ e.scalars.map Prod.fst,
      (s.dumpBelow schema excludes levels e row).get? name
        = if name ∈ excludes then none else row.get? name :=
    fun _ => get?_dumpBelow_stored hc hp he hr
  have hcopy : ∀ name ∈ e.scalars.map Prod.fst, ∀ value,
      (s.dumpBelow schema excludes levels e row).get? name = some value →
        row.get? name = some value :=
    fun _ hname _ => get?_of_get?_dumpBelow hc hp he hr hname
  have hnames : e.checkNames hard (s.dumpBelow schema excludes levels e row) = .ok () :=
    Entity.checkNames_eq_ok fun _ _ => exists_attribute_of_mem_keys
  generalize s.dumpBelow schema excludes levels e row = mapping at h hscalar hcopy hnames ⊢
  have hbase : (s.stored e mapping).Within row :=
    stored_within hk hr (fun name hname => hp.keys e he row hr name (.inl hname))
      fun name hname => hcopy name (hc.primaryKey e he name hname)
  have hall : hard = true → ∀ scalar ∈ e.scalars, (mapping.get? scalar.1).isSome := by
    intro hhard scalar hm
    have hname : scalar.1 ∈ e.scalars.map Prod.fst := List.mem_map.mpr ⟨scalar, hm, rfl⟩
    rw [hscalar _ hname, hx hhard, if_neg List.not_mem_nil, ← FieldMap.mem_keys]
    exact (hp.scalars e he row hr _).mpr hname
  obtain ⟨filled, hfilled, hgrow, hwithin, hscalars⟩ := Entity.overlay_restores
    (fun scalar hm => hcopy scalar.1 (List.mem_map.mpr ⟨scalar, hm, rfl⟩)) hall hbase
  obtain ⟨loaded, hloaded, hgrow', hwithin'⟩ := loadRelations_restores (e := e) h hwithin
  refine ⟨loaded, ?_, hgrow.trans hgrow', hwithin', ?_⟩
  · rw [load_eq, hnames]
    exact bind_eq_ok.mpr ⟨(), rfl, bind_eq_ok.mpr ⟨filled, hfilled, hloaded⟩⟩
  · intro name hname hnot
    have hkey := FieldMap.mem_keys.mp ((hp.scalars e he row hr name).mpr hname)
    obtain ⟨value, hvalue⟩ := Option.isSome_iff_exists.mp hkey
    obtain ⟨scalar, hm, rfl⟩ := List.mem_map.mp hname
    have hmapping : mapping.get? scalar.1 = some value := by
      rw [hscalar _ hname, if_neg hnot, hvalue]
    rw [hvalue, hgrow' _ _ (hscalars scalar hm value hmapping)]

/-- By induction on the levels: what stands under a relationship are dumps with one level less. -/
theorem restores_dumpBelow (hard : Bool) (excludes : List String) (levels : ℕ)
    (hc : schema.Closed models) (hk : ∀ e ∈ models, s.KeysKept e) (hp : s.Plain schema models)
    (hx : hard = true → excludes = []) (he : e ∈ models) (hr : row ∈ s.rows e.name) :
    s.Restores schema hard excludes e (s.dumpBelow schema excludes levels e row) row := by
  induction levels generalizing e row with
  | zero =>
    apply restores_dumpBelow_of_returns hc (hk e he) hp hx he hr
    intro r hm
    have hname := (hc.distinct e he).notMem_scalars hm
    exact .inl (get?_dumpBelow_of_notMem (.inr ⟨hname, .inl rfl⟩))
  | succ levels ih =>
    apply restores_dumpBelow_of_returns hc (hk e he) hp hx he hr
    intro r hm
    by_cases hex : r.1 ∈ excludes
    · exact .inl (get?_dumpBelow_of_notMem (.inl hex))
    · refine .inr ⟨_, get?_dumpBelow_relation (hc.distinct e he) hm hex, ?_⟩
      intro child hchild
      obtain ⟨other, hother, rfl⟩ := List.mem_map.mp hchild
      rw [related_eq, List.mem_filter, decide_eq_true_iff] at hother
      obtain ⟨related, hrelated, -, hwithin, -⟩ := ih (hc.target e he r hm) hother.1
      refine ⟨related, hrelated, fun key hkey => ?_⟩
      exact hp.key_eq hc he hr hm hother.1 hother.2 (hwithin _ _ hkey)

/-- A stored row is loaded from its dump, whole: from a dump of everything, hard or not, and from
one that leaves attributes out as long as it has the primary key. -/
theorem load_dump {steps : List StoreStep} (hc : schema.Closed models)
    (hs : Among models steps) (hp : (run steps).Plain schema models) (he : e ∈ models)
    (hr : row ∈ (run steps).rows e.name) (depth : ℕ) :
    (∀ hard, (run steps).load schema hard e ((run steps).dump schema e row depth [])
        = .ok row) ∧
      ∀ excludes, e.primaryKey ≠ [] → (∀ name ∈ excludes, name ∉ e.primaryKey) →
        (run steps).load schema false e ((run steps).dump schema e row depth excludes)
          = .ok row := by
  have hk : ∀ f ∈ models, (run steps).KeysKept f := fun f hf =>
    keysKept_run (fun e he f hf h => congrArg Entity.primaryKey (hc.unique e he f hf h)) hs hf
  constructor
  · intro hard
    obtain ⟨loaded, hok, -, hwithin, hscalars⟩ :=
      restores_dumpBelow hard [] (depth - 1) hc hk hp (fun _ => rfl) he hr
    have hback : row.Within loaded := by
      intro name value hvalue
      have hkey : name ∈ row.keys := by
        rw [FieldMap.mem_keys, hvalue]
        rfl
      rw [hscalars name ((hp.scalars e he row hr name).mp hkey) List.not_mem_nil, hvalue]
    rw [dump_eq, hok, hwithin.antisymm hback]
  · intro excludes hne hkey
    obtain ⟨loaded, hok, hgrow, hwithin, -⟩ :=
      restores_dumpBelow false excludes (depth - 1) hc hk hp (by simp) he hr
    -- the dump has the primary key, so loading starts from the row itself
    have hscalar : ∀ name ∈ e.primaryKey,
        ((run steps).dumpBelow schema excludes (depth - 1) e row).get? name = row.get? name := by
      intro name hname
      have hnot : name ∉ excludes := fun h => hkey name h hname
      rw [get?_dumpBelow_stored hc hp he hr (hc.primaryKey e he name hname), if_neg hnot]
    have hstored : (run steps).stored e
        ((run steps).dumpBelow schema excludes (depth - 1) e row) = row := by
      apply stored_of_own_key (hk e he) hr _ _ hne
      · intro name hname
        rw [hscalar name hname]
        exact (hk e he).keyed row hr name hname
      · exact fun name hname => hp.keys e he row hr name (.inl hname)
      · intro name hname value hvalue
        rw [← hscalar name hname, hvalue]
    rw [hstored] at hgrow
    rw [dump_eq, hok, hwithin.antisymm hgrow]

end Store

namespace Specimen

def nodeRow (id : Int64) (name : String) (parent : Value) : FieldMap :=
  .ofEntries [("id", .int id), ("name", .text name), ("parent_id", parent)]

/-- A node with two below it. -/
def planting : List StoreStep :=
  [.insert node (nodeRow 1 "root" .null), .insert node (nodeRow 2 "left" (.int 1)),
    .insert node (nodeRow 3 "right" (.int 1))]

end Specimen

namespace Store

open Specimen in
/-- The dump leaves out the parent's key, which the stored row then gives back. -/
theorem load_dump_node :
    Schema.Closed schema {node} ∧ Among {node} planting ∧
      (run planting).Plain schema {node} ∧ node ∈ ({node} : Set Entity) ∧
      nodeRow 2 "left" (.int 1) ∈ (run planting).rows node.name ∧
      (∀ name ∈ ["parent_id"], name ∉ node.primaryKey) ∧
      (run planting).load schema true node
          ((run planting).dump schema node (nodeRow 2 "left" (.int 1)) 3 [])
        = .ok (nodeRow 2 "left" (.int 1)) ∧
      (run planting).load schema false node
          ((run planting).dump schema node (nodeRow 2 "left" (.int 1)) 3 ["parent_id"])
        = .ok (nodeRow 2 "left" (.int 1)) := by
  have hrows : (run planting).rows node.name
      = [nodeRow 1 "root" .null, nodeRow 2 "left" (.int 1), nodeRow 3 "right" (.int 1)] := by
    decide +kernel
  have hc : Schema.Closed schema {node} := by
    constructor <;> simp only [Set.mem_singleton_iff, forall_eq] <;> decide +kernel
  have hs : Among {node} planting := by simp [Among, planting, StoreStep.entity?]
  have hp : (run planting).Plain schema {node} := by
    have hscalars : ∀ row ∈ (run planting).rows node.name,
        row.keys = node.scalars.map Prod.fst := by
      rw [hrows]
      decide
    have hplain : ∀ row ∈ (run planting).rows node.name, ∀ name ∈ row.keys,
        (row.get? name).all Value.isPlain = true := by
      rw [hrows]
      decide
    constructor
    · rintro e rfl row hm name
      rw [hscalars row hm]
    · rintro e rfl row hm name - value hvalue
      have hname : name ∈ row.keys := by
        rw [FieldMap.mem_keys, hvalue]
        rfl
      simpa [hvalue] using hplain row hm name hname
  have hr : nodeRow 2 "left" (.int 1) ∈ (run planting).rows node.name := by
    rw [hrows]
    decide
  have hkey : ∀ name ∈ ["parent_id"], name ∉ node.primaryKey := by decide
  obtain ⟨hwhole, hpart⟩ := load_dump hc hs hp (Set.mem_singleton node) hr 3
  exact ⟨hc, hs, hp, rfl, hr, hkey, hwhole true, hpart ["parent_id"] (by decide) hkey⟩

end Store
end PathQuery
