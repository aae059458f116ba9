import PathQuery.Proofs.Addressing
import PathQuery.Proofs.WholeNumbers

/-! Keys by another representative. Equality is symmetric, and it is transitive except through a
double to which two integers of too many digits are rounded: each equals the double, and they
differ. Short of such a second integer, equal values are representatives of one key: the same
values equal either, so the rows that match it, the rows joined through it and the rows that it
keeps out of a table do not depend on which is used, in a query or in a row. -/

namespace PathQuery

-- a power is the core library's, whatever else is in scope
attribute [local instance (high)] instPowNat

/-! ### Through a double -/

namespace Numeric

variable {x z : Numeric} {y : Binary64}

theorem order?_double (x : Numeric) (y : Binary64) :
    x.order? (.double y) = x.toBinary64.order? y := by
  cases x <;> rfl

/-- Numbers that equal one double are equal, unless they are two integers of too many digits. -/
theorem order?_of_double (hx : x.order? (.double y) = some .eq)
    (hz : z.order? (.double y) = some .eq) :
    x.order? z = some .eq ∨ ∃ m n, x = .exact m ∧ z = .exact n ∧ m ≠ n ∧
      2 ^ (53 : ℕ) ≤ m.natAbs ∧ 2 ^ (53 : ℕ) ≤ n.natAbs := by
  rw [order?_double] at hx hz
  have hsame : x.toBinary64.same z.toBinary64 = true := by
    have hx' : x.toBinary64.same y = true := beq_iff_eq.mpr hx
    have hz' : z.toBinary64.same y = true := beq_iff_eq.mpr hz
    rw [Binary64.same_comm] at hz'
    exact Binary64.same_trans hx' hz'
  cases x with
  | double u =>
    left
    cases z <;> exact beq_iff_eq.mp hsame
  | exact m =>
    cases z with
    | double w => exact .inl (beq_iff_eq.mp hsame)
    | exact n =>
      obtain rfl | hne := eq_or_ne m n
      · exact .inl (by simp [order?])
      · obtain ⟨-, -, hrank⟩ := Binary64.same_iff.mp hsame
        refine .inr ⟨m, n, rfl, rfl, hne, ?_, ?_⟩
        · exact Nat.le_of_not_lt fun hm => hne (Binary64.eq_of_rank_ofInt hm hrank)
        · exact Nat.le_of_not_lt fun hn => hne (Binary64.eq_of_rank_ofInt hn hrank.symm).symm

end Numeric

namespace Value

/-- An integer of more binary digits than a double stores. -/
def IsLarge (v : Value) : Prop := ∃ n : ℤ, v.numeric? = some (.exact n) ∧ 2 ^ (53 : ℕ) ≤ n.natAbs

/-- Two equal values that the same values equal. When one is a double and the other a large
integer, no other integer may be rounded to that double. -/
structure OneKey (k l : Value) : Prop where
  equal : k.equal? l = some true
  left : k.kind = .float → l.IsLarge → ∀ v : Value, v.IsLarge → v.equal? k = some true →
    v.equal? l = some true
  right : l.kind = .float → k.IsLarge → ∀ v : Value, v.IsLarge → v.equal? l = some true →
    v.equal? k = some true

variable {a b c k l v : Value}

theorem equal?_trans (hab : a.equal? b = some true) (hbc : b.equal? c = some true) :
    a.equal? c = some true ∨
      a.equal? c = some false ∧ b.kind = .float ∧ a.IsLarge ∧ c.IsLarge := by
  rw [equal?_comm] at hbc
  by_cases hkind : b.kind = .float
  · obtain ⟨y, hy⟩ : ∃ y, b.numeric? = some (.double y) := by
      cases b with
      | float y => exact ⟨y, rfl⟩
      | _ => cases hkind
    obtain ⟨x, hx⟩ := Option.isSome_iff_exists.mp
      ((isSome_numeric?_of_equal? hab).trans (Option.isSome_of_eq_some hy))
    obtain ⟨z, hz⟩ := Option.isSome_iff_exists.mp
      ((isSome_numeric?_of_equal? hbc).trans (Option.isSome_of_eq_some hy))
    simp only [equal?_of_numeric hx, equal?_of_numeric hz, hy, hz, Option.bind_some,
      Option.map_eq_some_iff, beq_iff_eq, exists_eq_right] at hab hbc ⊢
    rcases Numeric.order?_of_double hab hbc with heq | ⟨m, n, rfl, rfl, hne, hm, hn⟩
    · exact .inl heq
    · refine .inr ⟨⟨compare m n, rfl, ?_⟩, hkind, ⟨m, hx, hm⟩, ⟨n, hz, hn⟩⟩
      simpa using hne
  · exact .inl (equal?_of_key hkind hab hbc)

namespace OneKey

theorem symm (h : k.OneKey l) : l.OneKey k :=
  ⟨by rw [equal?_comm, h.equal], h.right, h.left⟩

theorem equal?_of_left (h : k.OneKey l) (hv : v.equal? k = some true) :
    v.equal? l = some true := by
  rcases equal?_trans hv h.equal with heq | ⟨-, hkind, hlarge, hlarge'⟩
  · exact heq
  · exact h.left hkind hlarge' v hlarge hv

theorem equal?_iff (h : k.OneKey l) (v : Value) :
    v.equal? k = some true ↔ v.equal? l = some true :=
  ⟨h.equal?_of_left, h.symm.equal?_of_left⟩

theorem holds_eq (h : k.OneKey l) (column : Column) (tuple : Tuple) :
    (Expr.compare column .eq k).holds tuple = (Expr.compare column .eq l).holds tuple := by
  simp only [Expr.holds, CompareOp.holds]
  congr 1
  funext actual
  rw [Bool.eq_iff_iff, beq_iff_eq, beq_iff_eq, h.equal?_iff]

end OneKey

end Value

/-! ### In rows -/

namespace FieldMap

/-- The row has a value under the name, and it equals this one. -/
def EqualAt (row : FieldMap) (name : String) (v : Value) : Prop :=
  ∃ w, row.get? name = some w ∧ v.equal? w = some true

/-- Two rows with the same under each name, or with two representatives of one key there. -/
def OneKey (a b : FieldMap) : Prop :=
  ∀ name, a.get? name = b.get? name ∨
    ∃ k l, a.get? name = some k ∧ b.get? name = some l ∧ k.OneKey l

variable {a b : FieldMap}

theorem oneKey_insert {k l : Value} (h : k.OneKey l) (row : FieldMap) (name : String) :
    (row.insert name k).OneKey (row.insert name l) := by
  intro field
  rw [get?_insert, get?_insert]
  split
  · exact .inr ⟨k, l, rfl, rfl, h⟩
  · exact .inl rfl

theorem OneKey.equalAt_iff (h : a.OneKey b) (name : String) (v : Value) :
    a.EqualAt name v ↔ b.EqualAt name v := by
  unfold EqualAt
  rcases h name with heq | ⟨k, l, hk, hl, hkl⟩
  · rw [heq]
  · simpa only [hk, hl, Option.some.injEq, exists_eq_left'] using hkl.equal?_iff v

/-- A representative of a key is not null. -/
theorem OneKey.keyed_iff (h : a.OneKey b) (e : Entity) : e.Keyed a ↔ e.Keyed b := by
  unfold Entity.Keyed
  refine forall₂_congr fun name _ => ?_
  rcases h name with heq | ⟨k, l, hk, hl, hkl⟩
  · rw [heq]
  · simp [hk, hl, Value.isNull_of_equal? hkl.equal, Value.isNull_of_equal? hkl.symm.equal]

/-- The rows at one place of a tuple may be exchanged. -/
theorem OneKey.exists_getElem?_iff (h : a.OneKey b) (before after : Tuple) (slot : ℕ)
    (name : String) (v : Value) :
    (∃ row, (before ++ a :: after)[slot]? = some row ∧ row.EqualAt name v) ↔
      ∃ row, (before ++ b :: after)[slot]? = some row ∧ row.EqualAt name v := by
  simp only [List.getElem?_append, List.getElem?_cons]
  split
  · rfl
  · split
    · simpa only [Option.some.injEq, exists_eq_left'] using h.equalAt_iff name v
    · rfl

end FieldMap

namespace Expr

variable {column : Column} {v : Value} {tuple : Tuple}

theorem holds_compare_eq_iff : (compare column .eq v).holds tuple = true ↔
    ∃ row, tuple[column.slot]? = some row ∧ row.EqualAt column.field v := by
  simp only [holds, CompareOp.holds, Column.read, Option.any_eq_true, FieldMap.EqualAt,
    Option.bind_eq_some_iff, beq_iff_eq]
  constructor
  · rintro ⟨w, ⟨row, hrow, hw⟩, heq⟩
    exact ⟨row, hrow, w, hw, by rw [Value.equal?_comm, heq]⟩
  · rintro ⟨row, hrow, w, hw, heq⟩
    exact ⟨w, ⟨row, hrow, hw⟩, by rw [Value.equal?_comm, heq]⟩

end Expr

namespace Join

variable {j : Join} {tuple : Tuple} {target : FieldMap}

theorem pairs_iff_target : j.pairs tuple target = true ↔
    ∃ source, tuple[j.sourceSlot]? = some source ∧ ∃ v, source.get? j.relation.localKey = some v ∧
      target.EqualAt j.relation.remoteKey v := by
  rw [pairs_iff]
  unfold Relation.Links FieldMap.EqualAt
  simp only [← exists_and_left]

theorem pairs_iff_source : j.pairs tuple target = true ↔
    ∃ v, target.get? j.relation.remoteKey = some v ∧
      ∃ source, tuple[j.sourceSlot]? = some source ∧ source.EqualAt j.relation.localKey v := by
  rw [pairs_iff]
  unfold Relation.Links FieldMap.EqualAt
  constructor
  · rintro ⟨source, hs, v, w, hv, hw, heq⟩
    exact ⟨w, hw, source, hs, v, hv, by rw [Value.equal?_comm, heq]⟩
  · rintro ⟨w, hw, source, hs, v, hv, heq⟩
    exact ⟨source, hs, v, w, hv, hw, by rw [Value.equal?_comm, heq]⟩

end Join

theorem Entity.sameKey_iff_equalAt {e : Entity} {a b : FieldMap} :
    e.SameKey a b ↔ ∀ name ∈ e.primaryKey, ∃ v, a.get? name = some v ∧ b.EqualAt name v := by
  unfold SameKey FieldMap.EqualAt
  simp only [← exists_and_left]

namespace FieldMap.OneKey

variable {a b : FieldMap}

theorem holds_eq (h : a.OneKey b) (column : Column) (v : Value) (before after : Tuple) :
    (Expr.compare column .eq v).holds (before ++ a :: after) =
      (Expr.compare column .eq v).holds (before ++ b :: after) := by
  rw [Bool.eq_iff_iff, Expr.holds_compare_eq_iff, Expr.holds_compare_eq_iff]
  exact h.exists_getElem?_iff before after _ _ _

theorem pairs_source_eq (h : a.OneKey b) (j : Join) (before after : Tuple) :
    j.pairs (before ++ a :: after) = j.pairs (before ++ b :: after) := by
  funext target
  rw [Bool.eq_iff_iff, Join.pairs_iff_source, Join.pairs_iff_source]
  exact exists_congr fun v => and_congr_right fun _ => h.exists_getElem?_iff before after _ _ _

theorem pairs_target_eq (h : a.OneKey b) (j : Join) (tuple : Tuple) :
    j.pairs tuple a = j.pairs tuple b := by
  rw [Bool.eq_iff_iff, Join.pairs_iff_target, Join.pairs_iff_target]
  simp only [h.equalAt_iff]

theorem sameKey_iff (h : a.OneKey b) (e : Entity) (other : FieldMap) :
    e.SameKey other a ↔ e.SameKey other b := by
  simp only [Entity.sameKey_iff_equalAt, h.equalAt_iff]

theorem accepts_eq (h : a.OneKey b) (s : Store) (e : Entity) :
    s.accepts (.insert e a) = s.accepts (.insert e b) := by
  rw [Bool.eq_iff_iff, Store.accepts_insert_iff, Store.accepts_insert_iff, h.keyed_iff]
  simp only [h.sameKey_iff]

/-- Stored, either keeps the same rows out. -/
theorem accepts_advance_eq (h : a.OneKey b) (s : Store) (e f : Entity) (other : FieldMap) :
    (s.advance (.insert e a)).accepts (.insert f other) =
      (s.advance (.insert e b)).accepts (.insert f other) := by
  have hsame : f.SameKey a other ↔ f.SameKey b other :=
    ⟨fun hs => ((h.sameKey_iff f other).mp hs.symm).symm,
      fun hs => ((h.sameKey_iff f other).mpr hs.symm).symm⟩
  rw [Bool.eq_iff_iff, Store.accepts_insert_iff, Store.accepts_insert_iff, Store.rows_advance,
    Store.rows_advance, h.accepts_eq]
  apply and_congr_right
  intro _
  cases s.accepts (.insert e b) with
  | false => rfl
  | true =>
    by_cases hname : e.name = f.name
    · simp [StoreStep.empties, StoreStep.row?, hname, or_imp, forall_and, hsame]
    · simp [StoreStep.empties, StoreStep.row?, hname]

end FieldMap.OneKey

/-! ### The classes -/

/-- Equality is symmetric, and transitive but for two large integers through a double; and which
representative of a key is used does not matter to what matches it, what is joined through it
and what it keeps out of a table. -/
theorem Value.equality_classes :
    (∀ a b : Value, a.equal? b = b.equal? a) ∧
      (∀ a b c : Value, a.equal? b = some true → b.equal? c = some true →
        a.equal? c = some true ∨
          a.equal? c = some false ∧ b.kind = .float ∧ a.IsLarge ∧ c.IsLarge) ∧
      (∀ k l : Value, k.OneKey l → ∀ (s : Store) (root : Entity) (joins : JoinSet)
        (before after : List Expr) (column : Column),
        s.execute ⟨root, joins, before ++ .compare column .eq k :: after⟩ =
          s.execute ⟨root, joins, before ++ .compare column .eq l :: after⟩) ∧
      ∀ a b : FieldMap, a.OneKey b →
        (∀ (column : Column) (v : Value) (before after : Tuple),
          (Expr.compare column .eq v).holds (before ++ a :: after) =
            (Expr.compare column .eq v).holds (before ++ b :: after)) ∧
        (∀ (j : Join) (before after : Tuple),
          j.pairs (before ++ a :: after) = j.pairs (before ++ b :: after)) ∧
        (∀ (j : Join) (tuple : Tuple), j.pairs tuple a = j.pairs tuple b) ∧
        (∀ (s : Store) (e : Entity), s.accepts (.insert e a) = s.accepts (.insert e b)) ∧
        ∀ (s : Store) (e f : Entity) (other : FieldMap),
          (s.advance (.insert e a)).accepts (.insert f other) =
            (s.advance (.insert e b)).accepts (.insert f other) := by
  refine ⟨Value.equal?_comm, fun a b c => Value.equal?_trans, ?_, fun a b h =>
    ⟨h.holds_eq, h.pairs_source_eq, h.pairs_target_eq, h.accepts_eq, h.accepts_advance_eq⟩⟩
  intro k l h s root joins before after column
  refine Store.execute_congr (by rfl) (by rfl) (fun tuple => ?_) s
  simp only [List.mem_append, List.mem_cons, or_imp, forall_and, forall_eq, h.holds_eq]

namespace Specimen

/-- Three by the double. -/
def three : Value := .float (Binary64.ofInt 3)

theorem oneKey_three : (Value.int 3).OneKey three where
  equal := by decide +kernel
  left := nofun
  right := by
    rintro - ⟨n, hn, hlarge⟩
    cases hn
    exact absurd hlarge (by decide)

end Specimen

open Specimen in
/-- By its double, a number finds, pairs and keeps out what it does by the integer. -/
theorem Value.equality_classes_three :
    (Value.uint 3).equal? (.int 3) = some true ∧
      (∀ s : Store, s.execute ⟨bed, ∅, [.compare (.root bed "number") .eq (.int 3)]⟩ =
        s.execute ⟨bed, ∅, [.compare (.root bed "number") .eq three]⟩) ∧
      ∀ (s : Store) (row : FieldMap), s.accepts (.insert bed (row.insert "number" (.int 3))) =
        s.accepts (.insert bed (row.insert "number" three)) := by
  obtain ⟨-, htrans, hexecute, hrows⟩ := Value.equality_classes
  refine ⟨?_, fun s => hexecute _ _ oneKey_three s bed ∅ [] [] _, fun s row => ?_⟩
  · rcases htrans (.uint 3) three (.int 3) (by decide +kernel) (by decide +kernel)
      with heq | ⟨-, -, ⟨n, hn, hlarge⟩, -⟩
    · exact heq
    · cases hn
      exact absurd hlarge (by decide)
  · obtain ⟨-, -, -, haccepts, -⟩ := hrows _ _ (FieldMap.oneKey_insert oneKey_three row "number")
    exact haccepts s bed

open Specimen in
/-- Two neighbours equal the double of one of them and not each other, and the double matches
more beds than the integer that it equals. -/
theorem Value.equality_not_transitive :
    (Value.int 9007199254740993).equal? (.float large) = some true ∧
      (Value.float large).equal? (.int 9007199254740992) = some true ∧
      (Value.int 9007199254740993).equal? (.int 9007199254740992) = some false ∧
      ((Store.run corridor).execute
        ⟨bed, ∅, [.compare (.root bed "number") .eq (.float large)]⟩).length = 3 ∧
      ((Store.run corridor).execute
        ⟨bed, ∅, [.compare (.root bed "number") .eq (.int 9007199254740992)]⟩).length = 2 := by
  decide +kernel

end PathQuery
