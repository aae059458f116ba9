import PathQuery.Proofs.Resolution

/-! Which criteria compile, and what is said about the others. An entry asks for something when
its path can be read, its hops can be followed from the root, and its attribute is there and may
be compared with its value; otherwise it is refused for the first of these that fails. No join
set has a say in this: the walk goes on at the target of each relationship, also where the set
has joined another entity of that name before. -/

namespace PathQuery

/-- Relationships that can be followed one after another, and where they lead. -/
inductive Schema.Walks (schema : Schema) : Entity → List String → Entity → Prop
  | stay (e : Entity) : Walks schema e [] e
  | hop {e f : Entity} {name : String} {names : List String} {relation : Relation}
    (hr : e.relation? name = some relation) (h : Walks schema (schema.target relation) names f) :
    Walks schema e (name :: names) f

/-- What a comparison needs: membership a list, a pattern text on both sides. -/
structure CompareOp.Applies (op : CompareOp) (kind : ScalarKind) (value : Value) : Prop where
  list : op = .within → ∃ items, value = .list items
  text : op = .like ∨ op = .ilike → kind = .text ∧ ∃ s, value = .text s

/-- The same comparison, made in another slot or in the same one. -/
inductive Expr.Moved : Expr → Expr → Prop
  | compare (entity : Entity) (field : String) (slot slot' : ℕ) (op : CompareOp) (value : Value) :
    Moved (.compare ⟨entity, field, slot⟩ op value) (.compare ⟨entity, field, slot'⟩ op value)

/-! ### Hops -/

section Hops

variable {schema : Schema} {origin : Option Entity} {here e f : Entity} {names : List String}
  {hops : List Hop} {err : CriteriaError}

theorem walks_of_route (h : route schema origin here names = .ok hops) :
    schema.Walks here names (arrival here hops) := by
  induction names generalizing origin here hops with
  | nil =>
    cases h
    exact .stay here
  | cons name names ih =>
    rw [route] at h
    cases hr : here.relation? name with
    | none => rw [hr] at h; cases h
    | some relation =>
      simp only [hr] at h
      obtain ⟨rest, hrest, rfl⟩ := map_eq_ok.mp h
      exact .hop hr (ih hrest)

theorem Schema.Walks.exists_route (h : schema.Walks e names f) (origin : Option Entity) :
    ∃ hops, route schema origin e names = .ok hops ∧ arrival e hops = f := by
  induction h generalizing origin with
  | stay e => exact ⟨[], rfl, rfl⟩
  | hop hr _ ih =>
    obtain ⟨hops, hroute, hf⟩ := ih (some _)
    rw [route, hr]
    exact ⟨_, map_eq_ok.mpr ⟨hops, hroute, rfl⟩, hf⟩

/-- A route fails at the first name that is no relationship of the entity reached there. -/
theorem route_eq_error_iff : route schema origin here names = .error err ↔
    ∃ before name after f, names = before ++ name :: after ∧ schema.Walks here before f ∧
      f.relation? name = none ∧ err = .unknownRelation f.name name := by
  induction names generalizing origin here with
  | nil => simp [route]
  | cons name names ih =>
    rw [route]
    cases hr : here.relation? name with
    | none =>
      constructor
      · intro h
        exact ⟨[], name, names, here, rfl, .stay here, hr, (Except.error.inj h).symm⟩
      · rintro ⟨before, other, after, f, hnames, hwalk, hnone, rfl⟩
        cases hwalk with
        | stay =>
          obtain ⟨rfl, -⟩ := List.cons.inj hnames
          rfl
        | hop hsome _ =>
          obtain ⟨rfl, -⟩ := List.cons.inj hnames
          rw [hr] at hsome
          cases hsome
    | some relation =>
      simp only [map_eq_error, ih]
      constructor
      · rintro ⟨before, other, after, f, rfl, hwalk, hnone, herr⟩
        exact ⟨name :: before, other, after, f, rfl, .hop hr hwalk, hnone, herr⟩
      · rintro ⟨before, other, after, f, hnames, hwalk, hnone, herr⟩
        cases hwalk with
        | stay =>
          obtain ⟨rfl, -⟩ := List.cons.inj hnames
          rw [hr] at hnone
          cases hnone
        | hop hsome hrest =>
          obtain ⟨rfl, rfl⟩ := List.cons.inj hnames
          rw [hr] at hsome
          cases hsome
          exact ⟨_, other, after, f, rfl, hrest, hnone, herr⟩

end Hops

/-! ### Attributes and operands -/

section Operands

variable {e : Entity} {name : String} {kind : ScalarKind} {op : CompareOp} {value : Value}
  {err : CriteriaError}

theorem comparable_eq_ok_iff : e.comparable name = .ok kind ↔ e.scalar? name = some kind := by
  rw [Entity.comparable]
  cases e.scalar? name with
  | some k => simp
  | none => cases (e.relation? name).isSome <;> simp

/-- An attribute that cannot be compared is a relationship or is not there. -/
theorem comparable_eq_error_iff : e.comparable name = .error err ↔
    (e.relation? name).isSome = true ∧ err = .relationNotComparable e.name name ∨
      e.attribute? name = none ∧ err = .unknownAttribute e.name name := by
  rw [Entity.comparable, Entity.scalar?, Entity.relation?]
  rcases e.attribute? name with _ | ⟨n, k | r⟩
  · simp [eq_comm]
  · simp [Attribute.scalar?, Attribute.relation?]
  · simp [Attribute.scalar?, Attribute.relation?, eq_comm]

theorem list_of_kind (h : value.kind = .list) : ∃ items, value = .list items := by
  cases value with
  | list items => exact ⟨items, rfl⟩
  | _ => cases h

theorem text_of_kind (h : value.kind = .text) : ∃ s, value = .text s := by
  cases value with
  | text s => exact ⟨s, rfl⟩
  | _ => cases h

/-- The other comparisons need nothing. -/
theorem CompareOp.applies_of_ne (hw : op ≠ .within) (hl : op ≠ .like) (hi : op ≠ .ilike) :
    op.Applies kind value :=
  ⟨fun h => absurd h hw, fun h => h.elim (absurd · hl) (absurd · hi)⟩

theorem checkOperand_eq_ok_iff :
    checkOperand e name kind op value = .ok () ↔ op.Applies kind value := by
  have hpattern : op = .like ∨ op = .ilike →
      (checkOperand e name kind op value = .ok () ↔ op.Applies kind value) := by
    intro hop
    have hwithin : op ≠ .within := by rcases hop with rfl | rfl <;> decide
    have hcheck : checkOperand e name kind op value = .ok () ↔
        kind = .text ∧ value.kind = .text := by
      rcases hop with rfl | rfl <;> rw [checkOperand] <;> split_ifs <;> simp_all
    rw [hcheck]
    constructor
    · rintro ⟨hk, hv⟩
      exact ⟨fun h => absurd h hwithin, fun _ => ⟨hk, text_of_kind hv⟩⟩
    · intro h
      obtain ⟨hk, s, rfl⟩ := h.text hop
      exact ⟨hk, rfl⟩
  cases op with
  | within =>
    rw [checkOperand]
    constructor
    · intro h
      refine ⟨fun _ => list_of_kind ?_, fun h => by simp at h⟩
      by_contra hk
      rw [if_neg hk] at h
      cases h
    · intro h
      obtain ⟨items, rfl⟩ := h.list rfl
      rfl
  | like => exact hpattern (.inl rfl)
  | ilike => exact hpattern (.inr rfl)
  | _ => exact iff_of_true rfl (CompareOp.applies_of_ne (by decide) (by decide) (by decide))

/-- An operand is refused for one reason, and the kind of the attribute comes first. -/
theorem checkOperand_eq_error_iff : checkOperand e name kind op value = .error err ↔
    (op = .within ∧ value.kind ≠ .list ∧ err = .invalidListValue e.name name op value.kind) ∨
    ((op = .like ∨ op = .ilike) ∧ kind ≠ .text ∧
      err = .unsupportedOperator e.name name op (.attributeKind kind)) ∨
    ((op = .like ∨ op = .ilike) ∧ kind = .text ∧ value.kind ≠ .text ∧
      err = .unsupportedOperator e.name name op (.patternKind value.kind)) := by
  cases op with
  | within => by_cases hv : value.kind = .list <;> simp [checkOperand, hv, eq_comm]
  | like =>
    by_cases hk : kind = .text <;> by_cases hv : value.kind = .text <;>
      simp [checkOperand, hk, hv, eq_comm]
  | ilike =>
    by_cases hk : kind = .text <;> by_cases hv : value.kind = .text <;>
      simp [checkOperand, hk, hv, eq_comm]
  | _ => simp [checkOperand]

end Operands

/-! ### Single entries -/

namespace Criteria

/-- The entry has a path that leads from the root to a scalar attribute of the entity, and its
comparison applies there. -/
structure Asks (schema : Schema) (root : Entity) (entry : String × Value) (path : Path)
    (entity : Entity) : Prop where
  parse : Path.parse entry.1 = .ok path
  walk : schema.Walks root path.hops entity
  operand : ∃ kind, entity.scalar? path.field = some kind ∧ path.op.Applies kind entry.2

/-- Why an entry is refused; each reason supposes that the ones before it are none. -/
inductive Refused (schema : Schema) (root : Entity) (entry : String × Value) : CriteriaError → Prop
  | path {e : CriteriaError} (h : Path.parse entry.1 = .error e) : Refused schema root entry e
  | hop {path : Path} {before after : List String} {name : String} {here : Entity}
    (hp : Path.parse entry.1 = .ok path) (hs : path.hops = before ++ name :: after)
    (hw : schema.Walks root before here) (h : here.relation? name = none) :
    Refused schema root entry (.unknownRelation here.name name)
  | relationship {path : Path} {here : Entity} (hp : Path.parse entry.1 = .ok path)
    (hw : schema.Walks root path.hops here) (h : (here.relation? path.field).isSome = true) :
    Refused schema root entry (.relationNotComparable here.name path.field)
  | missing {path : Path} {here : Entity} (hp : Path.parse entry.1 = .ok path)
    (hw : schema.Walks root path.hops here) (h : here.attribute? path.field = none) :
    Refused schema root entry (.unknownAttribute here.name path.field)
  | list {path : Path} {here : Entity} {kind : ScalarKind} (hp : Path.parse entry.1 = .ok path)
    (hw : schema.Walks root path.hops here) (hk : here.scalar? path.field = some kind)
    (ho : path.op = .within) (h : entry.2.kind ≠ .list) :
    Refused schema root entry (.invalidListValue here.name path.field path.op entry.2.kind)
  | attributeKind {path : Path} {here : Entity} {kind : ScalarKind}
    (hp : Path.parse entry.1 = .ok path) (hw : schema.Walks root path.hops here)
    (hk : here.scalar? path.field = some kind) (ho : path.op = .like ∨ path.op = .ilike)
    (h : kind ≠ .text) :
    Refused schema root entry
      (.unsupportedOperator here.name path.field path.op (.attributeKind kind))
  | patternKind {path : Path} {here : Entity} (hp : Path.parse entry.1 = .ok path)
    (hw : schema.Walks root path.hops here) (hk : here.scalar? path.field = some .text)
    (ho : path.op = .like ∨ path.op = .ilike) (h : entry.2.kind ≠ .text) :
    Refused schema root entry
      (.unsupportedOperator here.name path.field path.op (.patternKind entry.2.kind))

end Criteria

namespace Comparison

open Criteria (Asks Refused)

variable {schema : Schema} {root here : Entity} {entry : String × Value} {path : Path}
  {c : Comparison} {kind : ScalarKind} {err : CriteriaError}

theorem ofEntry_eq_ok (h : ofEntry schema root entry = .ok c) :
    ∃ path, Asks schema root entry path c.entity ∧
      c = ⟨c.hops, c.entity, path.field, path.op, entry.2⟩ := by
  obtain ⟨path, hp, h⟩ := bind_eq_ok.mp h
  obtain ⟨hops, hroute, h⟩ := bind_eq_ok.mp h
  obtain ⟨kind, hk, h⟩ := bind_eq_ok.mp h
  obtain ⟨_, hoperand, h⟩ := bind_eq_ok.mp h
  cases h
  exact ⟨path, ⟨hp, walks_of_route hroute, kind, comparable_eq_ok_iff.mp hk,
    checkOperand_eq_ok_iff.mp hoperand⟩, rfl⟩

/-- Behind a path that can be walked only the attribute and the operand are left to check. -/
theorem ofEntry_of_walks (hp : Path.parse entry.1 = .ok path)
    (hw : schema.Walks root path.hops here) : ∃ hops, ofEntry schema root entry = do
      let kind ← here.comparable path.field
      checkOperand here path.field kind path.op entry.2
      return ⟨hops, here, path.field, path.op, entry.2⟩ := by
  obtain ⟨hops, hroute, rfl⟩ := hw.exists_route none
  refine ⟨hops, ?_⟩
  rw [ofEntry, hp]
  change (route schema none root path.hops >>= _) = _
  rw [hroute]
  rfl

theorem exists_ofEntry_iff : (∃ c, ofEntry schema root entry = .ok c) ↔
    ∃ path entity, Asks schema root entry path entity := by
  constructor
  · rintro ⟨c, hc⟩
    obtain ⟨path, ha, -⟩ := ofEntry_eq_ok hc
    exact ⟨path, c.entity, ha⟩
  · rintro ⟨path, entity, hp, hw, kind, hk, ho⟩
    obtain ⟨hops, hofEntry⟩ := ofEntry_of_walks hp hw
    rw [hofEntry]
    exact ⟨_, bind_eq_ok.mpr ⟨kind, comparable_eq_ok_iff.mpr hk,
      bind_eq_ok.mpr ⟨(), checkOperand_eq_ok_iff.mpr ho, rfl⟩⟩⟩

theorem ofEntry_eq_error_iff :
    ofEntry schema root entry = .error err ↔ Refused schema root entry err := by
  constructor
  · intro h
    rcases bind_eq_error.mp h with hp | ⟨path, hp, h⟩
    · exact .path hp
    rcases bind_eq_error.mp h with hroute | ⟨hops, hroute, h⟩
    · obtain ⟨before, name, after, here, hs, hw, hr, rfl⟩ := route_eq_error_iff.mp hroute
      exact .hop hp hs hw hr
    have hw := walks_of_route hroute
    rcases bind_eq_error.mp h with hk | ⟨kind, hk, h⟩
    · rcases comparable_eq_error_iff.mp hk with ⟨hr, rfl⟩ | ⟨ha, rfl⟩
      · exact .relationship hp hw hr
      · exact .missing hp hw ha
    have hk := comparable_eq_ok_iff.mp hk
    rcases bind_eq_error.mp h with ho | ⟨_, -, h⟩
    · rcases checkOperand_eq_error_iff.mp ho with
        ⟨hop, hv, rfl⟩ | ⟨hop, ht, rfl⟩ | ⟨hop, rfl, hv, rfl⟩
      · exact .list hp hw hk hop hv
      · exact .attributeKind hp hw hk hop ht
      · exact .patternKind hp hw hk hop hv
    · cases h
  · have hattribute : ∀ {path here}, Path.parse entry.1 = .ok path →
        schema.Walks root path.hops here → here.comparable path.field = .error err →
          ofEntry schema root entry = .error err := by
      intro path here hp hw hk
      obtain ⟨hops, hofEntry⟩ := ofEntry_of_walks hp hw
      rw [hofEntry]
      exact bind_eq_error.mpr (.inl hk)
    have hoperand : ∀ {path here kind}, Path.parse entry.1 = .ok path →
        schema.Walks root path.hops here → here.scalar? path.field = some kind →
          checkOperand here path.field kind path.op entry.2 = .error err →
            ofEntry schema root entry = .error err := by
      intro path here kind hp hw hk ho
      obtain ⟨hops, hofEntry⟩ := ofEntry_of_walks hp hw
      rw [hofEntry]
      exact bind_eq_error.mpr (.inr ⟨kind, comparable_eq_ok_iff.mpr hk,
        bind_eq_error.mpr (.inl ho)⟩)
    intro h
    cases h with
    | path h => exact bind_eq_error.mpr (.inl h)
    | hop hp hs hw h =>
      have hroute := (@route_eq_error_iff _ none _ _ _).mpr ⟨_, _, _, _, hs, hw, h, rfl⟩
      exact bind_eq_error.mpr (.inr ⟨_, hp, bind_eq_error.mpr (.inl hroute)⟩)
    | relationship hp hw h => exact hattribute hp hw (comparable_eq_error_iff.mpr (.inl ⟨h, rfl⟩))
    | missing hp hw h => exact hattribute hp hw (comparable_eq_error_iff.mpr (.inr ⟨h, rfl⟩))
    | list hp hw hk ho h =>
      exact hoperand hp hw hk (checkOperand_eq_error_iff.mpr (.inl ⟨ho, h, rfl⟩))
    | attributeKind hp hw hk ho h =>
      exact hoperand hp hw hk (checkOperand_eq_error_iff.mpr (.inr (.inl ⟨ho, h, rfl⟩)))
    | patternKind hp hw hk ho h =>
      exact hoperand hp hw hk (checkOperand_eq_error_iff.mpr (.inr (.inr ⟨ho, rfl, h, rfl⟩)))

end Comparison

/-! ### Criteria -/

namespace Criteria

variable {schema : Schema} {root : Entity} {s t : JoinSet} {c : Criteria} {err : CriteriaError}

theorem compile_eq_error_iff : c.compile schema root s = .error err ↔
    c.resolve schema root = .error err := by rw [compile_eq, map_eq_error]

/-- An entry alone fails for its own reason, whatever has been joined. -/
theorem compile_single_eq_error_iff (s : JoinSet) (entry : String × Value) :
    compile schema root s ⟨[entry]⟩ = .error err ↔ Refused schema root entry err := by
  rw [compile_eq_error_iff, ← Comparison.ofEntry_eq_error_iff, resolve, List.mapM_cons,
    bind_eq_error]
  simp [bind_eq_error, pure, Except.pure]

theorem exists_compile_iff (s : JoinSet) : (∃ result, c.compile schema root s = .ok result) ↔
    ∀ entry ∈ c.entries, ∃ path entity, Asks schema root entry path entity := by
  simp only [compile_eq, map_eq_ok, ← Comparison.exists_ofEntry_iff, ← exists_mapM_iff]
  constructor
  · rintro ⟨_, cs, hcs, -⟩
    exact ⟨cs, hcs⟩
  · rintro ⟨cs, hcs⟩
    exact ⟨_, cs, hcs, rfl⟩

/-- Of each entry comes the comparison that it asks for. -/
theorem forall₂_of_compile {exprs : List Expr} (h : c.compile schema root s = .ok (exprs, t)) :
    List.Forall₂ (fun entry expr => ∃ path entity slot, Asks schema root entry path entity ∧
      expr = .compare ⟨entity, path.field, slot⟩ path.op entry.2) c.entries exprs := by
  rw [compile_eq] at h
  obtain ⟨cs, hcs, h⟩ := map_eq_ok.mp h
  obtain ⟨rfl, rfl⟩ := Prod.mk.inj h
  rw [List.forall₂_map_right_iff]
  apply (mapM_eq_ok_iff.mp hcs).imp
  intro entry k hk
  obtain ⟨path, ha, hfields⟩ := Comparison.ofEntry_eq_ok hk
  exact ⟨path, k.entity, _, ha, by rw [hfields]; rfl⟩

/-- Two join sets may give a comparison two slots, and nothing else of it. -/
theorem forall₂_moved_of_compile {s' t' : JoinSet} {exprs exprs' : List Expr}
    (h : c.compile schema root s = .ok (exprs, t))
    (h' : c.compile schema root s' = .ok (exprs', t')) :
    List.Forall₂ Expr.Moved exprs exprs' := by
  rw [compile_eq] at h h'
  obtain ⟨cs, hcs, h⟩ := map_eq_ok.mp h
  obtain ⟨cs', hcs', h'⟩ := map_eq_ok.mp h'
  obtain ⟨rfl, rfl⟩ := Prod.mk.inj h
  obtain ⟨rfl, rfl⟩ := Prod.mk.inj h'
  obtain rfl : cs = cs' := Except.ok.inj (hcs.symm.trans hcs')
  rw [List.forall₂_map_left_iff, List.forall₂_map_right_iff, List.forall₂_same]
  exact fun k _ => .compare k.entity k.field _ _ k.op k.value

/-- Criteria compile when each of their entries asks for something by itself, to one comparison
for each, and otherwise fail as the first entry does that asks for nothing. The joins there are
do not matter for this, and for the comparisons only in their slots. -/
theorem compile_verdict (schema : Schema) (root : Entity) (s : JoinSet) (c : Criteria) :
    ((∃ result, c.compile schema root s = .ok result) ↔
      ∀ entry ∈ c.entries, ∃ path entity, Asks schema root entry path entity) ∧
    (∀ exprs t, c.compile schema root s = .ok (exprs, t) →
      List.Forall₂ (fun entry expr => ∃ path entity slot, Asks schema root entry path entity ∧
        expr = .compare ⟨entity, path.field, slot⟩ path.op entry.2) c.entries exprs) ∧
    (∀ err, c.compile schema root s = .error err ↔ ∃ before entry after,
      c.entries = before ++ entry :: after ∧
        (∀ b ∈ before, ∃ path entity, Asks schema root b path entity) ∧
          compile schema root ∅ ⟨[entry]⟩ = .error err) ∧
    (∀ entry err, compile schema root ∅ ⟨[entry]⟩ = .error err ↔
      Refused schema root entry err) ∧
    ∀ s' : JoinSet,
      (∀ err, c.compile schema root s = .error err ↔ c.compile schema root s' = .error err) ∧
      ∀ exprs t exprs' t', c.compile schema root s = .ok (exprs, t) →
        c.compile schema root s' = .ok (exprs', t') → List.Forall₂ Expr.Moved exprs exprs' := by
  refine ⟨exists_compile_iff s, fun _ _ => forall₂_of_compile, fun err => ?_,
    fun entry err => compile_single_eq_error_iff ∅ entry, fun s' => ⟨fun err => ?_, fun _ _ _ _ =>
      forall₂_moved_of_compile⟩⟩
  · simp only [compile_eq_error_iff (c := c), compile_single_eq_error_iff,
      ← Comparison.ofEntry_eq_error_iff, ← Comparison.exists_ofEntry_iff]
    exact mapM_eq_error_iff
  · rw [compile_eq_error_iff, compile_eq_error_iff]

end Criteria

end PathQuery
