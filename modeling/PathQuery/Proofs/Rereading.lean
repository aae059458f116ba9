import PathQuery.Proofs.Bridging
import PathQuery.Proofs.NestedLoop
import PathQuery.Proofs.Tables

/-! Queries over values that went through documents. What a document does to a stored value is
no more than to choose another variant for the same number, and comparisons see numbers without
their variants. So a store whose values were all written and read back has the same candidates
for a plan that went the same way, loop by loop, and takes in the same rows. Stored values must
be single, since lists and records are compared by form, and doubles finite, since others come
back as null. -/

namespace PathQuery

namespace Value

/-- What a value is after it was written as a document and read back. -/
def reread (v : Value) : Value := v.toJson.toValue

/-- A list or a record, which compares by its form. -/
def isNested : Value → Bool
  | .list _ | .map _ => true
  | _ => false

/-- Not nested, and finite if it is a double. -/
def isSingle : Value → Bool
  | .float x => x.isFinite
  | v => !v.isNested

/-- Every double inside is finite. -/
def Finite (v : Value) : Prop := ∀ x, (float x).Occurs v → x.isFinite = true

/-- The same value, or the same number. -/
def Alike (a b : Value) : Prop := a = b ∨ ∃ x, a.numeric? = some x ∧ b.numeric? = some x

variable {a b c d v : Value} {x : Numeric} {items : List Value}

/-! ### What comparisons see -/

theorem equal?_of_numeric (h : a.numeric? = some x) (b : Value) :
    a.equal? b = b.numeric?.bind fun y => (x.order? y).map (· == .eq) := by
  cases hb : b.numeric? with
  | some y => simp only [equal?, h, hb, Option.bind_some]
  | none => cases a <;> cases b <;> simp_all [equal?, numeric?]

theorem order?_of_numeric (h : a.numeric? = some x) (b : Value) :
    a.order? b = b.numeric?.bind x.order? := by
  cases hb : b.numeric? with
  | some y => simp only [order?, h, hb, Option.bind_some]
  | none => cases a <;> cases b <;> simp_all [order?, numeric?]

theorem order?_swap (a b : Value) : b.order? a = (a.order? b).map Ordering.swap := by
  cases ha : a.numeric? with
  | some x =>
    cases hb : b.numeric? with
    | some y => simp only [order?, ha, hb, Numeric.order?_swap x y]
    | none => cases b <;> cases a <;> simp_all [order?, numeric?]
  | none =>
    cases a <;> cases b <;> simp_all [order?, numeric?]
    all_goals exact Std.OrientedCmp.eq_swap

/-- Patterns see texts only. -/
theorem fits_eq (mode : TextMode) (a b : Value) : CompareOp.fits mode a b =
    a.text?.any fun s => b.text?.any fun pattern => like s pattern mode := by
  cases a <;> cases b <;> rfl

namespace Alike

theorem refl (a : Value) : a.Alike a := .inl rfl

theorem equal?_left (h : a.Alike b) (c : Value) : a.equal? c = b.equal? c := by
  rcases h with rfl | ⟨x, ha, hb⟩
  · rfl
  · rw [equal?_of_numeric ha, equal?_of_numeric hb]

theorem equal? (hab : a.Alike b) (hcd : c.Alike d) : a.equal? c = b.equal? d := by
  rw [hab.equal?_left, equal?_comm, hcd.equal?_left, equal?_comm]

theorem order?_left (h : a.Alike b) (c : Value) : a.order? c = b.order? c := by
  rcases h with rfl | ⟨x, ha, hb⟩
  · rfl
  · rw [order?_of_numeric ha, order?_of_numeric hb]

theorem order? (hab : a.Alike b) (hcd : c.Alike d) : a.order? c = b.order? d := by
  rw [hab.order?_left, order?_swap, hcd.order?_left, ← order?_swap]

theorem isNull (h : a.Alike b) : a.isNull = b.isNull := by
  rcases h with rfl | ⟨x, ha, hb⟩
  · rfl
  · cases a <;> cases b <;> simp_all [numeric?, Value.isNull]

theorem text? (h : a.Alike b) : a.text? = b.text? := by
  rcases h with rfl | ⟨x, ha, hb⟩
  · rfl
  · cases a <;> cases b <;> simp_all [numeric?, Value.text?]

end Alike

/-! ### What rereading keeps -/

theorem reread_eq (v : Value) : v.reread = v.bridged := v.toValue_toJson

theorem alike_reread (h : v.isSingle = true) : v.Alike v.reread := by
  rw [reread_eq]
  cases v with
  | uint n => exact .inr ⟨_, rfl, numeric?_bridged_uint n⟩
  | float x =>
    have hx : x.isFinite = true := h
    exact .inl (by rw [bridged, if_pos hx])
  | list items => cases h
  | map entries => cases h
  | _ => exact .refl _

theorem isNested_reread (v : Value) : v.reread.isNested = v.isNested := by
  rw [reread_eq]
  cases v with
  | uint n => rw [bridged_uint]; split <;> rfl
  | float x => rw [bridged]; split <;> rfl
  | _ => rfl

theorem reread_list (items : List Value) : (list items).reread = .list (items.map reread) := by
  have h : reread = bridged := funext reread_eq
  rw [h, bridged, bridgedItems_eq_map]

theorem list?_reread (v : Value) : v.reread.list? = v.list?.map (List.map reread) := by
  cases v with
  | list items => rw [reread_list]; rfl
  | uint n => rw [reread_eq, bridged_uint]; split <;> rfl
  | float x => rw [reread_eq, bridged]; split <;> rfl
  | _ => rw [reread_eq]; rfl

/-! ### Single values against operands -/

theorem isNested_of_isSingle (h : a.isSingle = true) : a.isNested = false := by
  cases a <;> simp_all [isSingle, isNested]

theorem Finite.isSingle (hv : v.Finite) (h : v.isNested = false) : v.isSingle = true := by
  cases v with
  | float x => exact hv x .self
  | _ => simp_all [Value.isSingle]

theorem finite_of_isSingle (h : v.isSingle = true) : v.Finite := by
  rintro x (_ | ⟨hm, hx⟩ | ⟨hm, hx⟩)
  · exact h
  · cases h
  · cases h

theorem finite_list_iff : (list items).Finite ↔ ∀ v ∈ items, v.Finite := by
  constructor
  · exact fun h v hm x hx => h x (.item hm hx)
  · rintro h x (_ | ⟨hm, hx⟩)
    exact h _ hm x hx

theorem equal?_of_nested (ha : a.isNested = false) (hb : b.isNested = true) :
    a.equal? b = none := by
  cases b <;> cases a <;> simp_all [equal?, numeric?, isNested]

theorem order?_of_nested (hb : b.isNested = true) (a : Value) : a.order? b = none := by
  cases b <;> cases a <;> simp_all [order?, numeric?, isNested]

theorem text?_of_nested (h : v.isNested = true) : v.text? = none := by
  cases v <;> simp_all [text?, isNested]

/-- A comparison of a single value sees an operand by its number, or not at all. -/
theorem compare_reread (ha : a.isSingle = true) (hv : v.Finite) :
    a.reread.equal? v.reread = a.equal? v ∧ a.reread.order? v.reread = a.order? v ∧
      v.reread.text? = v.text? := by
  have halike := alike_reread ha
  cases hn : v.isNested with
  | false =>
    have hvalike := alike_reread (hv.isSingle hn)
    exact ⟨(halike.equal? hvalike).symm, (halike.order? hvalike).symm, hvalike.text?.symm⟩
  | true =>
    have ha' := isNested_of_isSingle ha
    have hn' : v.reread.isNested = true := (isNested_reread v).trans hn
    have hna' : a.reread.isNested = false := (isNested_reread a).trans ha'
    rw [equal?_of_nested hna' hn', equal?_of_nested ha' hn, order?_of_nested hn',
      order?_of_nested hn, text?_of_nested hn', text?_of_nested hn]
    exact ⟨rfl, rfl, rfl⟩

theorem amongItems?_reread (ha : a.isSingle = true) (hitems : ∀ v ∈ items, v.Finite) :
    a.reread.amongItems? (items.map reread) = a.amongItems? items := by
  induction items with
  | nil => rfl
  | cons item items ih =>
    obtain ⟨hitem, hrest⟩ := List.forall_mem_cons.mp hitems
    rw [List.map_cons, amongItems?, amongItems?, (compare_reread ha hitem).1, ih hrest]

theorem among?_eq (a v : Value) : a.among? v = v.list?.bind a.amongItems? := by
  cases v <;> rfl

theorem among?_reread (ha : a.isSingle = true) (hv : v.Finite) :
    a.reread.among? v.reread = a.among? v := by
  rw [among?_eq, among?_eq, list?_reread]
  cases v with
  | list items => exact amongItems?_reread ha (finite_list_iff.mp hv)
  | _ => rfl

end Value

theorem CompareOp.holds_reread {a v : Value} (ha : a.isSingle = true) (hv : v.Finite)
    (op : CompareOp) : op.holds a.reread v.reread = op.holds a v := by
  obtain ⟨hequal, horder, htext⟩ := Value.compare_reread ha hv
  have hactual := (Value.alike_reread ha).text?
  cases op with
  | within => simp only [holds, Value.among?_reread ha hv]
  | _ => simp only [holds, hequal, horder, Value.fits_eq, htext, hactual]

/-! ### Rows and expressions -/

namespace FieldMap

variable {row : FieldMap} {name : String} {value : Value}

theorem get?_mapValues (f : Value → Value) (row : FieldMap) (name : String) :
    (row.mapValues f).get? name = (row.get? name).map f := by
  change List.lookup name (row.entries.map fun e => (e.1, f e.2))
    = (List.lookup name row.entries).map f
  generalize row.entries = entries
  induction entries with
  | nil => rfl
  | cons e entries ih =>
    rw [List.map_cons, Entries.lookup_cons, Entries.lookup_cons, ih]
    split <;> rfl

/-- Every value is single. -/
def isSingle (row : FieldMap) : Bool := row.entries.all fun e => e.2.isSingle

theorem isSingle_of_get? (hrow : row.isSingle = true) (h : row.get? name = some value) :
    value.isSingle = true := by
  obtain ⟨before, after, hentries, -⟩ := List.lookup_eq_some_iff.mp h
  exact List.all_eq_true.mp hrow (name, value) (by simp [hentries])

end FieldMap

namespace Expr

mutual

/-- Replaces the operands of all comparisons. -/
def mapOperands (f : Value → Value) : Expr → Expr
  | .compare column op value => .compare column op (f value)
  | .and parts => .and (mapOperandsOfParts f parts)
  | .or parts => .or (mapOperandsOfParts f parts)
  | .not part => .not (mapOperands f part)

def mapOperandsOfParts (f : Value → Value) : List Expr → List Expr
  | [] => []
  | e :: es => mapOperands f e :: mapOperandsOfParts f es

end

theorem mapOperandsOfParts_eq_map (f : Value → Value) (parts : List Expr) :
    mapOperandsOfParts f parts = parts.map (mapOperands f) := by
  induction parts with
  | nil => rfl
  | cons e parts ih => rw [mapOperandsOfParts, ih, List.map_cons]

/-- The operands of the comparisons inside an expression. -/
inductive HasOperand (value : Value) : Expr → Prop
  | compare (column : Column) (op : CompareOp) : HasOperand value (.compare column op value)
  | and {parts : List Expr} {e : Expr} (he : e ∈ parts) (h : HasOperand value e) :
    HasOperand value (.and parts)
  | or {parts : List Expr} {e : Expr} (he : e ∈ parts) (h : HasOperand value e) :
    HasOperand value (.or parts)
  | not {e : Expr} (h : HasOperand value e) : HasOperand value (.not e)

/-- No operand has a double inside that is not finite. -/
def Finite (e : Expr) : Prop := ∀ value, HasOperand value e → value.Finite

theorem read_mapValues (f : Value → Value) (c : Column) (tuple : Tuple) :
    c.read (tuple.map (FieldMap.mapValues f)) = (c.read tuple).map f := by
  rw [Column.read, Column.read, List.getElem?_map]
  cases tuple[c.slot]? with
  | none => rfl
  | some row => exact FieldMap.get?_mapValues f row c.field

/-- An expression has the same truth after rereading. -/
theorem holds_reread {e : Expr} (he : e.Finite) {tuple : Tuple}
    (ht : ∀ row ∈ tuple, row.isSingle = true) :
    (e.mapOperands Value.reread).holds (tuple.map (FieldMap.mapValues Value.reread))
      = e.holds tuple := by
  induction e using induct with
  | compare column op value =>
    rw [mapOperands, holds, holds, read_mapValues]
    cases hread : column.read tuple with
    | none => rfl
    | some actual =>
      obtain ⟨row, hrow, hget⟩ := Option.bind_eq_some_iff.mp hread
      have hsingle := FieldMap.isSingle_of_get? (ht row (List.mem_of_getElem? hrow)) hget
      exact CompareOp.holds_reread hsingle (he value (.compare column op)) op
  | and parts ih =>
    rw [mapOperands, mapOperandsOfParts_eq_map, holds_and, holds_and, List.all_map]
    rw [Bool.eq_iff_iff, List.all_eq_true, List.all_eq_true]
    refine forall₂_congr fun e hm => ?_
    rw [Function.comp, ih e hm fun value h => he value (.and hm h)]
  | or parts ih =>
    rw [mapOperands, mapOperandsOfParts_eq_map, holds_or, holds_or, List.any_map]
    rw [Bool.eq_iff_iff, List.any_eq_true, List.any_eq_true]
    refine exists_congr fun e => and_congr_right fun hm => ?_
    rw [Function.comp, ih e hm fun value h => he value (.or hm h)]
  | not part ih =>
    rw [mapOperands, holds_not, holds_not, ih fun value h => he value (.not h)]

end Expr

/-! ### Plans and candidates -/

namespace Plan

/-- Replaces the operands of all clauses. -/
def mapOperands (f : Value → Value) (p : Plan) : Plan :=
  { p with filters := p.filters.map (Expr.mapOperands f) }

/-- No operand has a double inside that is not finite. -/
def Finite (p : Plan) : Prop := ∀ e ∈ p.filters, e.Finite

end Plan

def Candidate.mapValues (f : Value → Value) (c : Candidate) : Candidate :=
  ⟨c.index, c.tuple.map (FieldMap.mapValues f)⟩

theorem Candidate.mapValues_extend (f : Value → Value) (c : Candidate) (row : FieldMap) :
    (c.extend row).mapValues f = (c.mapValues f).extend (row.mapValues f) := by
  simp [Candidate.mapValues, Candidate.extend]

namespace Store

/-- Replaces every stored value. -/
def mapValues (f : Value → Value) (s : Store) : Store :=
  ⟨s.tables.map fun table => (table.1, table.2.map (FieldMap.mapValues f))⟩

/-- Every row in a table has single values only. -/
def Single (s : Store) : Prop := ∀ name, ∀ row ∈ s.rows name, row.isSingle = true

variable {s : Store} {root : Entity} {joins : List Join} {row : FieldMap}

theorem single_of_all (h : (s.tables.all fun table => table.2.all FieldMap.isSingle) = true) :
    s.Single := by
  intro name row hrow
  rw [rows] at hrow
  cases hl : s.tables.lookup name with
  | none => rw [hl] at hrow; cases hrow
  | some rows =>
    rw [hl] at hrow
    obtain ⟨before, after, htables, -⟩ := List.lookup_eq_some_iff.mp hl
    have hrows := List.all_eq_true.mp h (name, rows) (by simp [htables])
    exact List.all_eq_true.mp hrows row hrow

@[simp] theorem rows_mapValues (f : Value → Value) (s : Store) (name : String) :
    (s.mapValues f).rows name = (s.rows name).map (FieldMap.mapValues f) := by
  rw [rows, rows, mapValues]
  induction s.tables with
  | nil => rfl
  | cons t tables ih =>
    rw [List.map_cons, Entries.lookup_cons, Entries.lookup_cons]
    split
    · rfl
    · exact ih

theorem scan_mapValues (f : Value → Value) (s : Store) (root : Entity) :
    (s.mapValues f).scan root = (s.scan root).map (Candidate.mapValues f) := by
  apply List.ext_getElem?
  intro i
  simp only [scan, rows_mapValues, List.getElem?_mapIdx, List.getElem?_map, Option.map_map]
  rfl

/-- Candidates are made of stored rows. -/
theorem single_of_mem_candidates (hs : s.Single) {c : Candidate}
    (hc : c ∈ s.candidates root joins) : ∀ row ∈ c.tuple, row.isSingle = true := by
  induction joins using List.reverseRecOn generalizing c with
  | nil =>
    obtain ⟨row, hrow, ht⟩ := mem_scan.mp hc
    rw [ht, List.forall_mem_singleton]
    exact hs _ row (List.mem_of_getElem? hrow)
  | append_singleton joins j ih =>
    rw [candidates_append, mem_innerJoin] at hc
    obtain ⟨b, hb, row, hrow, -, rfl⟩ := hc
    rw [Candidate.extend, List.forall_mem_append, List.forall_mem_singleton]
    exact ⟨ih hb, hs _ row hrow⟩

/-- A join finds the same partners after rereading. -/
theorem pairs_reread {tuple : Tuple} (ht : ∀ row ∈ tuple, row.isSingle = true)
    (hrow : row.isSingle = true) (j : Join) :
    j.pairs (tuple.map (FieldMap.mapValues Value.reread)) (row.mapValues Value.reread)
      = j.pairs tuple row := by
  rw [Join.pairs, Join.pairs, List.getElem?_map]
  cases hsource : tuple[j.sourceSlot]? with
  | none => rfl
  | some source =>
    simp only [Option.map_some, Option.bind_some, FieldMap.get?_mapValues]
    cases ha : source.get? j.relation.localKey with
    | none => rfl
    | some a =>
      have hasingle := FieldMap.isSingle_of_get? (ht source (List.mem_of_getElem? hsource)) ha
      cases hb : row.get? j.relation.remoteKey with
      | none => rfl
      | some b =>
        have hbsingle := FieldMap.isSingle_of_get? hrow hb
        have hequal := (Value.alike_reread hasingle).equal? (Value.alike_reread hbsingle)
        simp only [Option.map_some, Option.any_some, Value.equals, hequal]

theorem innerJoin_reread (hs : s.Single) {cs : List Candidate}
    (hcs : ∀ c ∈ cs, ∀ row ∈ c.tuple, row.isSingle = true) (j : Join) :
    (s.mapValues Value.reread).innerJoin (cs.map (Candidate.mapValues Value.reread)) j
      = (s.innerJoin cs j).map (Candidate.mapValues Value.reread) := by
  rw [innerJoin, innerJoin, List.flatMap_map, List.map_flatMap]
  apply List.flatMap_congr
  intro c hc
  have hpartners : (s.rows j.target.name).filter
        (j.pairs (c.mapValues Value.reread).tuple ∘ FieldMap.mapValues Value.reread)
      = (s.rows j.target.name).filter (j.pairs c.tuple) :=
    List.filter_congr fun row hrow => pairs_reread (hcs c hc) (hs _ row hrow) j
  rw [rows_mapValues, List.filter_map, hpartners, List.map_map, List.map_map]
  exact List.map_congr_left fun row _ => (Candidate.mapValues_extend _ c row).symm

/-- The loops over reread rows run as those over the rows. -/
theorem candidates_reread (hs : s.Single) (root : Entity) (joins : List Join) :
    (s.mapValues Value.reread).candidates root joins
      = (s.candidates root joins).map (Candidate.mapValues Value.reread) := by
  induction joins using List.reverseRecOn with
  | nil => exact scan_mapValues Value.reread s root
  | append_singleton joins j ih =>
    rw [candidates_append, candidates_append, ih]
    exact innerJoin_reread hs (fun _ hc => single_of_mem_candidates hs hc) j

theorem matching_reread (hs : s.Single) {p : Plan} (hp : p.Finite) :
    (s.mapValues Value.reread).matching (p.mapOperands Value.reread)
      = (s.matching p).map (Candidate.mapValues Value.reread) := by
  rw [matching, matching, Plan.mapOperands, candidates_reread hs, List.filter_map]
  congr 1
  apply List.filter_congr
  intro c hc
  have ht := single_of_mem_candidates hs hc
  rw [Function.comp, Bool.eq_iff_iff, predicate_holds_iff, predicate_holds_iff,
    List.forall_mem_map]
  refine forall₂_congr fun e he => ?_
  rw [Candidate.mapValues, Expr.holds_reread (hp e he) ht]

theorem positions_reread (hs : s.Single) {p : Plan} (hp : p.Finite) :
    (s.mapValues Value.reread).positions (p.mapOperands Value.reread) = s.positions p := by
  rw [positions, positions, matching_reread hs hp, List.map_map]
  rfl

theorem execute_reread (hs : s.Single) {p : Plan} (hp : p.Finite) :
    (s.mapValues Value.reread).execute (p.mapOperands Value.reread)
      = (s.execute p).map (FieldMap.mapValues Value.reread) := by
  rw [execute, execute, positions_reread hs hp, List.map_filterMap, rows_mapValues]
  exact List.filterMap_congr fun i _ => List.getElem?_map

end Store

/-! ### Keys and inserts -/

namespace Entity

variable {e : Entity} {a b c d row : FieldMap}

/-- The values of the primary key that are there are single. -/
def SingleKey (e : Entity) (row : FieldMap) : Prop :=
  ∀ name ∈ e.primaryKey, ∀ value, row.get? name = some value → value.isSingle = true

/-- The rows have alike values for the same attributes of the primary key. -/
def AlikeKey (e : Entity) (a b : FieldMap) : Prop :=
  ∀ name ∈ e.primaryKey, Option.Rel Value.Alike (a.get? name) (b.get? name)

theorem AlikeKey.refl (e : Entity) (row : FieldMap) : e.AlikeKey row row := by
  intro name _
  cases row.get? name with
  | none => exact .none
  | some value => exact .some (.refl value)

theorem alikeKey_reread (h : e.SingleKey row) :
    e.AlikeKey row (row.mapValues Value.reread) := by
  intro name hname
  rw [FieldMap.get?_mapValues]
  cases hvalue : row.get? name with
  | none => exact .none
  | some value => exact .some (Value.alike_reread (h name hname value hvalue))

theorem AlikeKey.keyed_iff (h : e.AlikeKey a b) : e.Keyed a ↔ e.Keyed b := by
  refine forall₂_congr fun name hname => ?_
  have hvalue := h name hname
  generalize a.get? name = x at hvalue ⊢
  generalize b.get? name = y at hvalue ⊢
  cases hvalue with
  | none => rfl
  | some hvw => simp [hvw.isNull]

theorem AlikeKey.sameKey_iff (hab : e.AlikeKey a b) (hcd : e.AlikeKey c d) :
    e.SameKey a c ↔ e.SameKey b d := by
  refine forall₂_congr fun name hname => ?_
  have hleft := hab name hname
  have hright := hcd name hname
  generalize a.get? name = x at hleft ⊢
  generalize b.get? name = y at hleft ⊢
  generalize c.get? name = z at hright ⊢
  generalize d.get? name = w at hright ⊢
  cases hleft with
  | none => simp
  | some hleft =>
    cases hright with
    | none => simp
    | some hright => simp [hleft.equal? hright]

end Entity

namespace Store

variable {s : Store} {e : Entity} {a b : FieldMap}

/-- An insert of a row with an alike key goes in as well. -/
theorem accepts_reread (hs : s.Single) (hab : e.AlikeKey a b) :
    (s.mapValues Value.reread).accepts (.insert e b) = s.accepts (.insert e a) := by
  rw [Bool.eq_iff_iff, accepts_insert_iff, accepts_insert_iff, hab.keyed_iff, rows_mapValues,
    List.forall_mem_map]
  refine and_congr_right fun _ => forall₂_congr fun stored hm => not_congr ?_
  have hsingle : e.SingleKey stored :=
    fun _ _ _ hvalue => FieldMap.isSingle_of_get? (hs _ stored hm) hvalue
  exact ((Entity.alikeKey_reread hsingle).sameKey_iff hab).symm

/-- Over values that were written and read back a plan selects the same places, when its operands
were too, and the same inserts go in. -/
theorem reread_invisible (hs : s.Single) :
    (∀ p : Plan, p.Finite →
      (s.mapValues Value.reread).positions (p.mapOperands Value.reread) = s.positions p ∧
        (s.mapValues Value.reread).execute (p.mapOperands Value.reread)
          = (s.execute p).map (FieldMap.mapValues Value.reread)) ∧
      ∀ e row,
        (s.mapValues Value.reread).accepts (.insert e row) = s.accepts (.insert e row) ∧
          (e.SingleKey row →
            (s.mapValues Value.reread).accepts (.insert e (row.mapValues Value.reread))
              = s.accepts (.insert e row)) :=
  ⟨fun _ hp => ⟨positions_reread hs hp, execute_reread hs hp⟩,
    fun e row => ⟨accepts_reread hs (.refl e row),
      fun hrow => accepts_reread hs (Entity.alikeKey_reread hrow)⟩⟩

end Store

namespace Specimen

open Attribute (scalar)

/-- Treatments of two statuses, with numbers in every variant. -/
def mixed : Store :=
  ⟨[("Treatment",
      [.ofEntries [("id", .int 1), ("status_id", .float (Binary64.ofInt 3))],
        .ofEntries [("id", .uint 2), ("status_id", .uint 3)],
        .ofEntries [("id", .uint 4), ("status_id", .int 5)]]),
    ("Status", [.ofEntries [("id", .uint 3)], .ofEntries [("id", .uint 5)]])]⟩

/-- Treatments other than the second whose status has a low key. -/
def low : Plan :=
  ⟨treatment, ⟨[⟨treatment, 0, "status", ⟨"Status", .one, "status_id", "id"⟩, status, 1⟩]⟩,
    [.not (.compare (.root treatment "id") .within (.list [.uint 2, .null, .list [.uint 1]])),
      .compare ⟨status, "id", 1⟩ .le (.uint 4)]⟩

/-- The second treatment by another variant. -/
def again : FieldMap := .ofEntries [("id", .float (Binary64.ofInt 2))]

end Specimen

namespace Store

open Specimen in
/-- The first treatment is selected, and the second does not go in again. -/
theorem reread_invisible_mixed :
    mixed.Single ∧ low.Finite ∧ treatment.SingleKey again ∧
      ((mixed.mapValues Value.reread).positions (low.mapOperands Value.reread)
          = mixed.positions low ∧
        (mixed.mapValues Value.reread).execute (low.mapOperands Value.reread)
          = (mixed.execute low).map (FieldMap.mapValues Value.reread)) ∧
      (mixed.mapValues Value.reread).accepts (.insert treatment (again.mapValues Value.reread))
        = mixed.accepts (.insert treatment again) ∧
      mixed.positions low = [0] ∧ mixed.accepts (.insert treatment again) = false := by
  have hs : mixed.Single := single_of_all (by decide +kernel)
  have hp : low.Finite := by
    have hitems : (Value.list [.uint 2, .null, .list [.uint 1]]).Finite := by
      simp [Value.finite_list_iff, Value.finite_of_isSingle, Value.isSingle, Value.isNested]
    refine List.forall_mem_cons.mpr ⟨?_, List.forall_mem_singleton.mpr ?_⟩
    · rintro value (_ | _ | _ | ⟨⟨⟩⟩)
      exact hitems
    · rintro value ⟨⟩
      exact Value.finite_of_isSingle rfl
  have hrow : treatment.SingleKey again :=
    fun _ _ _ hvalue => FieldMap.isSingle_of_get? (by decide +kernel) hvalue
  obtain ⟨hplans, hinserts⟩ := reread_invisible hs
  exact ⟨hs, hp, hrow, hplans low hp, (hinserts treatment again).2 hrow, by decide +kernel,
    by decide +kernel⟩

end Store

end PathQuery
