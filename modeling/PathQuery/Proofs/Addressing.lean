import PathQuery.Proofs.Loading
import PathQuery.Proofs.Rereading

/-! Rows that a primary key addresses. Stored keys were compared with each other when they went
in, and a lookup compares them with one more key. Equality widens integers to doubles, so it is
not transitive: two large integers may both equal one double. Through a key that is no double it
is: what equals an integer is that integer or the double next to it, and what equals a list, a
record or a text has its form. So rows that match one such key have equal keys, and of these a
table has one only, wherever in the table it stands. -/

namespace PathQuery

/-! ### Equal to one value -/

namespace Numeric

variable {x y : Numeric} {n : Int}

/-- Numbers that equal one integer are equal. -/
theorem order?_of_exact (hx : x.order? (.exact n) = some .eq)
    (hy : y.order? (.exact n) = some .eq) : x.order? y = some .eq := by
  have hexact : ∀ m : Int, (exact m).order? (.exact n) = some .eq → m = n := by
    intro m h
    simpa [order?] using h
  cases x with
  | exact a =>
    obtain rfl := hexact a hx
    rw [order?_swap y, hy]
    rfl
  | double u =>
    cases y with
    | exact b =>
      obtain rfl := hexact b hy
      exact hx
    | double v =>
      -- both doubles are the one that the integer is rounded to
      have hu : u.same (Binary64.ofInt n) = true := beq_iff_eq.mpr hx
      have hv : v.same (Binary64.ofInt n) = true := beq_iff_eq.mpr hy
      rw [Binary64.same_comm] at hv
      exact beq_iff_eq.mp (Binary64.same_trans hu hv)

end Numeric

namespace Value

variable {a b key : Value}

mutual

theorem same_trans : ∀ {a b c : Value}, a.same b = true → b.same c = true → a.same c = true
  | .null, b, c, h, h' => by cases b <;> cases c <;> simp_all [same]
  | .bool _, b, c, h, h' => by cases b <;> cases c <;> simp_all [same]
  | .int _, b, c, h, h' => by cases b <;> cases c <;> simp_all [same]
  | .uint _, b, c, h, h' => by cases b <;> cases c <;> simp_all [same]
  | .text _, b, c, h, h' => by cases b <;> cases c <;> simp_all [same]
  | .float _, .float _, .float _, h, h' => by
    simp only [same] at *
    exact Binary64.same_trans h h'
  | .list _, .list _, .list _, h, h' => by
    simp only [same] at *
    exact sameItems_trans h h'
  | .map _, .map _, .map _, h, h' => by
    simp only [same] at *
    exact sameEntries_trans h h'

theorem sameItems_trans : ∀ {a b c : List Value},
    sameItems a b = true → sameItems b c = true → sameItems a c = true
  | [], [], [], _, _ => rfl
  | x :: xs, y :: ys, z :: zs, h, h' => by
    simp only [sameItems, Bool.and_eq_true] at *
    exact ⟨same_trans h.1 h'.1, sameItems_trans h.2 h'.2⟩

theorem sameEntries_trans : ∀ {a b c : List (String × Value)},
    sameEntries a b = true → sameEntries b c = true → sameEntries a c = true
  | [], [], [], _, _ => rfl
  | (_, x) :: xs, (_, y) :: ys, (_, z) :: zs, h, h' => by
    simp only [sameEntries, Bool.and_eq_true, beq_iff_eq] at *
    exact ⟨⟨h.1.1.trans h'.1.1, same_trans h.1.2 h'.1.2⟩, sameEntries_trans h.2 h'.2⟩

end

/-- Values that are no numbers are equal when they have one form; null is not. -/
theorem equal?_iff_same (h : a.numeric? = none) :
    a.equal? b = some true ↔ a.isNull = false ∧ a.same b = true := by
  cases a <;> cases b <;> simp_all [equal?, numeric?, same, isNull]

/-- Only numbers equal numbers. -/
theorem isSome_numeric?_of_equal? (h : a.equal? b = some true) :
    a.numeric?.isSome = b.numeric?.isSome := by
  cases a <;> cases b <;> simp_all [equal?, numeric?]

theorem exact_of_numeric? (hkey : key.kind ≠ .float) {x : Numeric} (h : key.numeric? = some x) :
    ∃ n, x = .exact n := by
  cases key with
  | int n => exact ⟨_, (Option.some.inj h).symm⟩
  | uint n => exact ⟨_, (Option.some.inj h).symm⟩
  | float x => exact absurd rfl hkey
  | _ => cases h

/-- Values that equal one key are equal, when it is no double. -/
theorem equal?_of_key (hkey : key.kind ≠ .float) (ha : a.equal? key = some true)
    (hb : b.equal? key = some true) : a.equal? b = some true := by
  have hna := isSome_numeric?_of_equal? ha
  have hnb := isSome_numeric?_of_equal? hb
  cases hk : key.numeric? with
  | some k =>
    obtain ⟨n, rfl⟩ := exact_of_numeric? hkey hk
    rw [hk] at hna hnb
    obtain ⟨x, hx⟩ := Option.isSome_iff_exists.mp hna
    obtain ⟨y, hy⟩ := Option.isSome_iff_exists.mp hnb
    simp only [equal?, hx, hy, hk, Option.map_eq_some_iff, beq_iff_eq, exists_eq_right] at ha hb ⊢
    exact Numeric.order?_of_exact ha hb
  | none =>
    rw [hk, Option.isSome_none, Option.isSome_eq_false_iff, Option.isNone_iff_eq_none] at hna hnb
    obtain ⟨hnull, hsame⟩ := (equal?_iff_same hna).mp ha
    obtain ⟨-, hsame'⟩ := (equal?_iff_same hnb).mp hb
    rw [same_comm] at hsame'
    exact (equal?_iff_same hna).mpr ⟨hnull, same_trans hsame hsame'⟩

end Value

/-! ### Plans that ask for a key -/

namespace Entity

/-- The row has these values under the attributes of the primary key. -/
def Matches (e : Entity) (key : String → Value) (row : FieldMap) : Prop :=
  ∀ name ∈ e.primaryKey, ∃ value, row.get? name = some value ∧
    value.equal? (key name) = some true

variable {e : Entity} {key : String → Value} {a b : FieldMap}

/-- A row with the key of another matches the values there. -/
theorem SameKey.matches (h : e.SameKey a b) :
    e.Matches (fun name => (b.get? name).getD .null) a := by
  intro name hname
  obtain ⟨v, w, hv, hw, heq⟩ := h name hname
  exact ⟨v, hv, by simpa only [hw, Option.getD_some] using heq⟩

theorem Matches.sameKey (hkey : ∀ name ∈ e.primaryKey, (key name).kind ≠ .float)
    (ha : e.Matches key a) (hb : e.Matches key b) : e.SameKey a b := by
  intro name hname
  obtain ⟨v, hv, heq⟩ := ha name hname
  obtain ⟨w, hw, heq'⟩ := hb name hname
  exact ⟨v, w, hv, hw, Value.equal?_of_key (hkey name hname) heq heq'⟩

end Entity

namespace Plan

/-- The plan asks for rows of the entity with these values of the primary key, and perhaps for
more. -/
structure Addresses (p : Plan) (e : Entity) (key : String → Value) : Prop where
  root : p.root = e
  clauses : ∀ name ∈ e.primaryKey, .compare (.root e name) .eq (key name) ∈ p.filters

/-- The plan that asks for these values of the primary key alone. -/
def ofKey (e : Entity) (key : String → Value) : Plan :=
  ⟨e, ∅, e.primaryKey.map fun name => .compare (.root e name) .eq (key name)⟩

theorem addresses_ofKey (e : Entity) (key : String → Value) : (ofKey e key).Addresses e key :=
  ⟨rfl, fun _ hname => List.mem_map_of_mem hname⟩

end Plan

namespace Store

variable {s t : Store} {e : Entity} {key : String → Value} {p : Plan} {mapping : FieldMap}
  {tuple : Tuple} {i j : ℕ}

/-- What an addressing plan selects has the key. -/
theorem Answers.matches (h : s.Answers p i tuple) (hp : p.Addresses e key) :
    ∃ row, (s.rows e.name)[i]? = some row ∧ e.Matches key row := by
  obtain ⟨row, hrow, h0⟩ := h.start
  rw [hp.root] at hrow
  refine ⟨row, hrow, fun name hname => ?_⟩
  have hclause := h.clauses _ (hp.clauses name hname)
  simpa [Expr.holds, Column.read, Column.root, rootSlot, h0, CompareOp.holds,
    Option.any_eq_true] using hclause

/-- Two places do not have one key. -/
theorem KeysKept.place_eq (hk : s.KeysKept e)
    (hkey : ∀ name ∈ e.primaryKey, (key name).kind ≠ .float) (hp : p.Addresses e key)
    (hi : i ∈ s.positions p) (hj : j ∈ s.positions p) : i = j := by
  obtain ⟨_, hti⟩ := mem_positions.mp hi
  obtain ⟨_, htj⟩ := mem_positions.mp hj
  obtain ⟨a, ha, hma⟩ := hti.matches hp
  obtain ⟨b, hb, hmb⟩ := htj.matches hp
  obtain ⟨hi, rfl⟩ := List.getElem?_eq_some_iff.mp ha
  obtain ⟨hj, rfl⟩ := List.getElem?_eq_some_iff.mp hb
  have hapart := List.pairwise_iff_getElem.mp hk.distinct
  rcases Nat.lt_trichotomy i j with hlt | heq | hgt
  · exact absurd (hma.sameKey hkey hmb) (hapart i j hi hj hlt)
  · exact heq
  · exact absurd (hmb.sameKey hkey hma) (hapart j i hj hi hgt)

theorem KeysKept.length_execute_le (hk : s.KeysKept e)
    (hkey : ∀ name ∈ e.primaryKey, (key name).kind ≠ .float) (hp : p.Addresses e key) :
    (s.execute p).length ≤ 1 := by
  have hlength : (s.execute p).length = (s.positions p).length := by
    simpa using congrArg List.length (execute_map_some s p)
  rw [hlength]
  have hsorted := positions_pairwise s p
  match hpos : s.positions p with
  | [] => exact Nat.zero_le _
  | [_] => exact Nat.le_refl _
  | i :: j :: rest =>
    rw [hpos] at hsorted
    have hlt : i < j := (List.pairwise_cons.mp hsorted).1 j List.mem_cons_self
    have heq : i = j := hk.place_eq hkey hp (by simp [hpos]) (by simp [hpos])
    omega

/-- Fetching one row reports what a plan with at most one row selects. -/
theorem fetchOne_of_length_le (h : (s.execute p).length ≤ 1) :
    (∀ row, Id.run (s.backend.fetchOne p) = .ok row ↔ row ∈ s.execute p) ∧
      ∀ entity count, Id.run (s.backend.fetchOne p) ≠ .error (.multipleResults entity count) := by
  have hfetch : Id.run (s.backend.fetchOne p) = Backend.single p.root (s.execute p) := rfl
  rw [hfetch]
  match s.execute p, h with
  | [], _ => simp [Backend.single]
  | [row], _ => simp [Backend.single, eq_comm]

/-- The only item that passes a test is found in any order. -/
theorem find?_eq_of_perm {α : Type} {test : α → Bool} {as bs : List α} (hp : as.Perm bs)
    (h : ∀ a ∈ as, ∀ b ∈ as, test a = true → test b = true → a = b) :
    as.find? test = bs.find? test := by
  cases ha : as.find? test with
  | none =>
    rw [List.find?_eq_none] at ha
    exact (List.find?_eq_none.mpr fun b hb => ha b (hp.mem_iff.mpr hb)).symm
  | some a =>
    have hmem := List.mem_of_find?_eq_some ha
    cases hb : bs.find? test with
    | none => exact absurd (List.find?_some ha) (List.find?_eq_none.mp hb a (hp.mem_iff.mp hmem))
    | some b =>
      have hmem' := hp.mem_iff.mpr (List.mem_of_find?_eq_some hb)
      rw [h a hmem b hmem' (List.find?_some ha) (List.find?_some hb)]

/-- A mapping that is keyed without doubles starts from one row, wherever that stands. -/
theorem KeysKept.stored_of_perm (hk : s.KeysKept e)
    (hm : ∀ name ∈ e.primaryKey, ∀ value, mapping.get? name = some value → value.kind ≠ .float)
    (hp : (t.rows e.name).Perm (s.rows e.name)) : t.stored e mapping = s.stored e mapping := by
  by_cases h : e.primaryKey = [] ∨ ¬ e.Keyed mapping
  · rw [stored_of_not_keyed h, stored_of_not_keyed h]
  · rw [not_or, not_not] at h
    rw [stored_of_keyed h.1 h.2, stored_of_keyed h.1 h.2]
    rw [find?_eq_of_perm hp]
    intro a ha b hb hma hmb
    rw [decide_eq_true_iff] at hma hmb
    have hkey : ∀ name ∈ e.primaryKey, ((mapping.get? name).getD .null).kind ≠ .float := by
      intro name hname
      obtain ⟨value, hvalue, -⟩ := h.2 name hname
      rw [hvalue]
      exact hm name hname value hvalue
    exact hk.eq_of_sameKey (hp.mem_iff.mp ha) (hp.mem_iff.mp hb)
      (hma.matches.sameKey hkey hmb.matches)

variable {models : Set Entity} {steps : List StoreStep}

/-- After every run of entities that agree on primary keys, a plan that asks for a primary key
without doubles selects at most one row, which is the one that is fetched, and a mapping with such
a key starts from a row that the order of the table does not decide. -/
theorem run_addresses (hm : ∀ e ∈ models, ∀ f ∈ models, e.name = f.name →
      e.primaryKey = f.primaryKey) (hs : Among models steps) (he : e ∈ models) :
    (∀ (key : String → Value) (p : Plan), (∀ name ∈ e.primaryKey, (key name).kind ≠ .float) →
      p.Addresses e key → ((run steps).execute p).length ≤ 1 ∧
        (∀ row, Id.run ((run steps).backend.fetchOne p) = .ok row ↔ row ∈ (run steps).execute p) ∧
        ∀ entity count,
          Id.run ((run steps).backend.fetchOne p) ≠ .error (.multipleResults entity count)) ∧
      ∀ (mapping : FieldMap) (t : Store),
        (∀ name ∈ e.primaryKey, ∀ value, mapping.get? name = some value →
          value.kind ≠ .float) →
        (t.rows e.name).Perm ((run steps).rows e.name) →
          t.stored e mapping = (run steps).stored e mapping := by
  have hk := keysKept_run hm hs he
  constructor
  · intro key p hkey hp
    have hlength := hk.length_execute_le hkey hp
    exact ⟨hlength, fetchOne_of_length_le hlength⟩
  · exact fun mapping t hkey hperm => hk.stored_of_perm hkey hperm

end Store

namespace Specimen

/-- The first integer above which doubles do not tell neighbours apart. -/
def large : Binary64 := Binary64.ofInt 9007199254740992

/-- Two neighbours in one ward, and their double in another, where the second of them does not
go in. -/
def corridor : List StoreStep :=
  [.insert bed (bedRow "a" (.int 9007199254740992)),
    .insert bed (bedRow "a" (.uint 9007199254740993)), .insert bed (bedRow "b" (.float large)),
    .insert bed (bedRow "b" (.int 9007199254740993))]

def bedKey (ward : String) (number : Value) : String → Value
  | "ward" => .text ward
  | _ => number

/-- The key of the first bed, by another variant. -/
def firstKey : String → Value := bedKey "a" (.uint 9007199254740992)

/-- A mapping with the number of the bed that did not go in. -/
def refused : FieldMap := bedRow "b" (.int 9007199254740993)

/-- The beds in the opposite order. -/
def backwards : Store := Store.run (corridor.take 3).reverse

end Specimen

namespace Store

open Specimen in
/-- The double of the two neighbours, as a key, addresses both of them. -/
theorem run_addresses_corridor :
    (∀ e ∈ ({bed} : Set Entity), ∀ f ∈ ({bed} : Set Entity), e.name = f.name →
        e.primaryKey = f.primaryKey) ∧
      Among {bed} corridor ∧ bed ∈ ({bed} : Set Entity) ∧
      ((∀ name ∈ bed.primaryKey, (firstKey name).kind ≠ .float) ∧
        (Plan.ofKey bed firstKey).Addresses bed firstKey ∧
        ((run corridor).execute (.ofKey bed firstKey)).length ≤ 1 ∧
        Id.run ((run corridor).backend.fetchOne (.ofKey bed firstKey))
          = .ok (bedRow "a" (.int 9007199254740992))) ∧
      ((∀ name ∈ bed.primaryKey, ∀ value, refused.get? name = some value →
          value.kind ≠ .float) ∧
        (backwards.rows bed.name).Perm ((run corridor).rows bed.name) ∧
        backwards.stored bed refused = (run corridor).stored bed refused ∧
        (run corridor).stored bed refused = bedRow "b" (.float large)) ∧
      ((run corridor).execute (.ofKey bed (bedKey "a" (.float large)))).length = 2 := by
  have hm : ∀ e ∈ ({bed} : Set Entity), ∀ f ∈ ({bed} : Set Entity), e.name = f.name →
      e.primaryKey = f.primaryKey := by
    rintro e rfl f rfl _
    rfl
  have hs : Among {bed} corridor := by simp [Among, corridor, StoreStep.entity?]
  have he : bed ∈ ({bed} : Set Entity) := Set.mem_singleton bed
  obtain ⟨hplans, hmappings⟩ := run_addresses hm hs he
  have hkey : ∀ name ∈ bed.primaryKey, (firstKey name).kind ≠ .float := by decide
  have hp := Plan.addresses_ofKey bed firstKey
  obtain ⟨hlength, hfetch, -⟩ := hplans firstKey _ hkey hp
  have hnumbers : ∀ name ∈ bed.primaryKey, ∀ value, refused.get? name = some value →
      value.kind ≠ .float := by
    intro name hname value hvalue
    have hall : ∀ name ∈ bed.primaryKey,
        ((refused.get? name).all fun value => value.kind != .float) = true := by decide +kernel
    simpa [hvalue] using hall name hname
  have hperm : (backwards.rows bed.name).Perm ((run corridor).rows bed.name) := by
    decide +kernel
  have hstored := hmappings refused backwards hnumbers hperm
  exact ⟨hm, hs, he, ⟨hkey, hp, hlength, (hfetch _).mpr (by decide +kernel)⟩,
    ⟨hnumbers, hperm, hstored, by decide +kernel⟩, by decide +kernel⟩

end Store

end PathQuery
