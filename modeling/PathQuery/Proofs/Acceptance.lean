import PathQuery.Proofs.Loading

/-! Which mappings load. The grammar of mappings speaks of the entity and the mapping alone: what
stands under a relationship is null, one mapping or a list of mappings, as the relationship has
it, and hard loading also wants every scalar and no other names, at every level. A load goes
through mappings as the grammar does, and nowhere does the row that it has made so far, let
alone what is stored, decide whether it goes on. -/

namespace PathQuery

mutual

/-- The mapping is one of the entity. -/
inductive Fits (schema : Schema) (hard : Bool) : Entity → FieldMap → Prop
  | intro {e : Entity} {mapping : FieldMap}
    (names : hard = true → ∀ name ∈ mapping.keys, ∃ a ∈ e.attributes, a.name = name)
    (scalars : hard = true → ∀ scalar ∈ e.scalars, (mapping.get? scalar.1).isSome)
    (relations : ∀ relation ∈ e.relations, ∀ value, mapping.get? relation.1 = some value →
      Nests schema hard relation.2 value) : Fits schema hard e mapping

/-- The value may stand under the relationship. -/
inductive Nests (schema : Schema) (hard : Bool) : Relation → Value → Prop
  | null {relation : Relation} : Nests schema hard relation .null
  | one {relation : Relation} {entries : List (String × Value)}
    (cardinality : relation.cardinality = .one)
    (fits : Fits schema hard (schema.target relation) (.ofEntries entries)) :
    Nests schema hard relation (.map entries)
  | many {relation : Relation} {items : List (List (String × Value))}
    (cardinality : relation.cardinality = .many)
    (fits : ∀ entries ∈ items, Fits schema hard (schema.target relation) (.ofEntries entries)) :
    Nests schema hard relation (.list (items.map .map))

end

/-! ### Computations with one verdict -/

/-- All the computations succeed, and this is so when the condition holds, or they all fail
with one error. -/
def Uniform {ι ε α : Type} (x : ι → Except ε α) (condition : Prop) : Prop :=
  (condition ∧ ∀ i, ∃ a, x i = .ok a) ∨ (¬ condition ∧ ∃ err, ∀ i, x i = .error err)

namespace Uniform

variable {ι ε α β : Type} {x : ι → Except ε α} {y : ι → Except ε β} {f : ι → α → Except ε β}
  {p q : Prop}

theorem ok (a : ι → α) : Uniform (fun i => (.ok (a i) : Except ε α)) True :=
  .inl ⟨trivial, fun i => ⟨a i, rfl⟩⟩

theorem error (err : ε) : Uniform (fun _ : ι => (.error err : Except ε α)) False :=
  .inr ⟨id, err, fun _ => rfl⟩

theorem congr (h : Uniform x p) (hp : p ↔ q) : Uniform x q := by
  rwa [Uniform, ← hp]

/-- The second computation may use the result of the first, as long as its verdict does not. -/
theorem bind (hx : Uniform x p) (hf : Uniform (fun k : ι × α => f k.1 k.2) q) :
    Uniform (fun i => x i >>= f i) (p ∧ q) := by
  rcases hx with ⟨hp, hx⟩ | ⟨hp, err, hx⟩
  · rcases hf with ⟨hq, hf⟩ | ⟨hq, err, hf⟩
    · refine .inl ⟨⟨hp, hq⟩, fun i => ?_⟩
      obtain ⟨a, ha⟩ := hx i
      obtain ⟨b, hb⟩ := hf (i, a)
      exact ⟨b, bind_eq_ok.mpr ⟨a, ha, hb⟩⟩
    · refine .inr ⟨fun h => hq h.2, err, fun i => ?_⟩
      obtain ⟨a, ha⟩ := hx i
      simp only [ha]
      exact hf (i, a)
  · refine .inr ⟨fun h => hp h.1, err, fun i => ?_⟩
    simp only [hx i]
    rfl

/-- Only the computations that come up count. -/
theorem comp {κ : Type} (h : Uniform x p) (g : κ → ι) : Uniform (fun k => x (g k)) p := by
  rcases h with ⟨hp, h⟩ | ⟨hp, err, h⟩
  · exact .inl ⟨hp, fun k => h (g k)⟩
  · exact .inr ⟨hp, err, fun k => h (g k)⟩

end Uniform

/-! ### One level -/

namespace Entity

variable {e : Entity} {hard : Bool} {mapping : FieldMap}

theorem uniform_checkNames (ι : Type) : Uniform (fun _ : ι => e.checkNames hard mapping)
    (hard = true → ∀ name ∈ mapping.keys, ∃ a ∈ e.attributes, a.name = name) := by
  rw [← unknownName?_eq_none_iff]
  unfold checkNames
  cases hard with
  | false => exact (Uniform.ok _).congr (by simp)
  | true =>
    cases h : e.unknownName? mapping with
    | none => exact (Uniform.ok _).congr (by simp)
    | some name => exact (Uniform.error _).congr (by simp)

theorem uniform_overlay (scalars : List (String × ScalarKind)) :
    Uniform (fun row : FieldMap => e.overlay hard mapping scalars row)
      (hard = true → ∀ scalar ∈ scalars, (mapping.get? scalar.1).isSome) := by
  induction scalars with
  | nil => exact (Uniform.ok _).congr (by simp)
  | cons scalar scalars ih =>
    obtain ⟨name, kind⟩ := scalar
    simp only [overlay]
    cases h : mapping.get? name with
    | some value => exact (ih.comp fun row : FieldMap => row.insert name value).congr (by simp [h])
    | none =>
      cases hard with
      | true => exact (Uniform.error _).congr (by simp [h])
      | false => exact ih.congr (by simp)

end Entity

/-! ### All levels -/

section

variable {schema : Schema} {hard : Bool} {e : Entity} {mapping : FieldMap} {relation : Relation}

theorem fits_iff : Fits schema hard e mapping ↔
    (hard = true → ∀ name ∈ mapping.keys, ∃ a ∈ e.attributes, a.name = name) ∧
      (hard = true → ∀ scalar ∈ e.scalars, (mapping.get? scalar.1).isSome) ∧
        ∀ relation ∈ e.relations, ∀ value, mapping.get? relation.1 = some value →
          Nests schema hard relation.2 value :=
  ⟨fun ⟨names, scalars, relations⟩ => ⟨names, scalars, relations⟩,
    fun ⟨names, scalars, relations⟩ => ⟨names, scalars, relations⟩⟩

theorem nests_map_iff (hc : relation.cardinality = .one) {entries : List (String × Value)} :
    Nests schema hard relation (.map entries) ↔
      Fits schema hard (schema.target relation) (.ofEntries entries) :=
  ⟨fun | .one _ h => h, .one hc⟩

/-- Each item is a mapping of the entity. -/
def AllFit (schema : Schema) (hard : Bool) (target : Entity) (items : List Value) : Prop :=
  ∀ item ∈ items, ∃ entries, item = .map entries ∧ Fits schema hard target (.ofEntries entries)

theorem nests_list_iff (hc : relation.cardinality = .many) {items : List Value} :
    Nests schema hard relation (.list items) ↔
      AllFit schema hard (schema.target relation) items := by
  constructor
  · rintro (_ | _ | ⟨_, h⟩) item hm
    obtain ⟨entries, hentries, rfl⟩ := List.mem_map.mp hm
    exact ⟨entries, rfl, h entries hentries⟩
  · intro h
    obtain ⟨all, rfl, hall⟩ : ∃ all : List (List (String × Value)), items = all.map .map ∧
        ∀ entries ∈ all, Fits schema hard (schema.target relation) (.ofEntries entries) := by
      induction items with
      | nil => exact ⟨[], rfl, by simp⟩
      | cons item items ih =>
        obtain ⟨⟨entries, rfl, hfits⟩, hrest⟩ := List.forall_mem_cons.mp h
        obtain ⟨all, rfl, hall⟩ := ih hrest
        exact ⟨entries :: all, rfl, List.forall_mem_cons.mpr ⟨hfits, hall⟩⟩
    exact .many hc hall

/-- Loading has one verdict on a mapping, and it is that of the grammar. -/
theorem uniform_load (schema : Schema) (hard : Bool) (e : Entity) (mapping : FieldMap) :
    Uniform (fun s : Store => s.load schema hard e mapping) (Fits schema hard e mapping) := by
  refine Backend.load.induct schema
    (fun e mapping =>
      Uniform (fun s : Store => s.load schema hard e mapping) (Fits schema hard e mapping))
    (fun e mapping relations _ =>
      Uniform (fun k : Store × FieldMap => k.1.loadRelations schema hard e mapping relations k.2)
        (∀ relation ∈ relations, ∀ value, mapping.get? relation.1 = some value →
          Nests schema hard relation.2 value))
    (fun e name target items =>
      Uniform (fun s : Store => s.loadItems schema hard e name target items)
        (AllFit schema hard target items))
    ?load ?nil ?absent ?null ?map ?list ?noMap ?noList ?noItem ?item ?badItem e mapping
  case load =>
    intro e mapping hrelations
    simp only [Store.load_eq]
    refine ((Entity.uniform_checkNames Store).bind ?_).congr fits_iff.symm
    refine ((Entity.uniform_overlay e.scalars).comp
      fun k : Store × Unit => k.1.stored e mapping).bind ?_
    exact (hrelations ∅).comp fun k : (Store × Unit) × FieldMap => (k.1.1, k.2)
  case nil =>
    intro e mapping _
    simp only [Store.loadRelations_nil]
    exact (Uniform.ok _).congr (by simp)
  case absent =>
    intro e mapping _ name relation relations h ih
    simp only [Store.loadRelations_of_absent h]
    exact ih.congr (by simp [h])
  case null =>
    intro e mapping _ name relation relations h ih
    simp only [Store.loadRelations_of_null h]
    exact ih.congr (by simp [h, Nests.null])
  case map =>
    intro e mapping _ name relation relations entries h hc hload ih
    simp only [Store.loadRelations_of_map hc h]
    have hrest := (ih ∅).comp fun k : (Store × FieldMap) × FieldMap =>
      (k.1.1, k.1.2.adopt relation k.2)
    exact ((hload.comp Prod.fst).bind hrest).congr (by simp [h, nests_map_iff hc])
  case list =>
    intro e mapping _ name relation relations items h hc hitems ih
    simp only [Store.loadRelations_of_list hc h]
    have hrest := ih.comp fun k : (Store × FieldMap) × Unit => k.1
    exact ((hitems.comp Prod.fst).bind hrest).congr (by simp [h, nests_list_iff hc])
  case noMap =>
    intro e mapping _ name relation relations value hnull hmap h hc
    simp only [Store.loadRelations_of_no_map hc h hnull hmap]
    refine (Uniform.error _).congr ⟨False.elim, fun hall => ?_⟩
    cases hall (name, relation) List.mem_cons_self value h with
    | null => exact hnull rfl
    | one _ _ => exact hmap _ rfl
    | many hm _ => rw [hc] at hm; cases hm
  case noList =>
    intro e mapping _ name relation relations value hnull hlist h hc
    simp only [Store.loadRelations_of_no_list hc h hnull hlist]
    refine (Uniform.error _).congr ⟨False.elim, fun hall => ?_⟩
    cases hall (name, relation) List.mem_cons_self value h with
    | null => exact hnull rfl
    | one hm _ => rw [hc] at hm; cases hm
    | many _ _ => exact hlist _ rfl
  case noItem =>
    intro e name target
    simp only [Store.loadItems_nil]
    exact (Uniform.ok _).congr (by simp [AllFit])
  case item =>
    intro e name target entries items hload ih
    simp only [Store.loadItems_cons_map]
    have hrest := ih.comp fun k : Store × FieldMap => k.1
    exact (hload.bind hrest).congr (by simp [AllFit])
  case badItem =>
    intro e name target value items hmap
    simp only [Store.loadItems_cons_of_no_map hmap]
    refine (Uniform.error _).congr ⟨False.elim, fun hall => ?_⟩
    obtain ⟨entries, rfl, -⟩ := hall value List.mem_cons_self
    exact hmap entries rfl

/-- Whether a mapping loads is not up to the store. -/
theorem Store.exists_load_iff_fits {s : Store} :
    (∃ row, s.load schema hard e mapping = .ok row) ↔ Fits schema hard e mapping := by
  rcases uniform_load schema hard e mapping with ⟨hfits, hok⟩ | ⟨hfits, err, herror⟩
  · exact iff_of_true (hok s) hfits
  · refine iff_of_false ?_ hfits
    rintro ⟨row, hrow⟩
    cases hrow.symm.trans (herror s)

/-- A mapping loads when it fits, whatever is stored; when it does not fit, it fails with one
error. -/
theorem Store.load_accepts (schema : Schema) (hard : Bool) (e : Entity) (mapping : FieldMap)
    (s t : Store) :
    ((∃ row, s.load schema hard e mapping = .ok row) ↔ Fits schema hard e mapping) ∧
      ((∃ row other, s.load schema hard e mapping = .ok row ∧
          t.load schema hard e mapping = .ok other) ∨
        ∃ err, s.load schema hard e mapping = .error err ∧
          t.load schema hard e mapping = .error err) := by
  rcases uniform_load schema hard e mapping with ⟨hfits, hok⟩ | ⟨hfits, err, herror⟩
  · obtain ⟨row, hs⟩ := hok s
    obtain ⟨other, ht⟩ := hok t
    exact ⟨iff_of_true ⟨row, hs⟩ hfits, .inl ⟨row, other, hs, ht⟩⟩
  · refine ⟨iff_of_false ?_ hfits, .inr ⟨err, herror s, herror t⟩⟩
    rintro ⟨row, hs⟩
    cases hs.symm.trans (herror s)

end

end PathQuery
