import PathQuery.Graph.Mapping
import PathQuery.Value.Comparison

/-! Values through JSON documents. A document read as a value is written back as it was, since
every form of a number is read as a variant of its own. A value comes back bridged, and the
values that come back unchanged are those in which nothing is to be bridged, at any depth. Both
ways the keys of records stay as they are, so a record remains in the order of its names. -/

namespace PathQuery

variable {α β : Type}

theorem map_eq_self_iff {f : α → α} {as : List α} : as.map f = as ↔ ∀ a ∈ as, f a = a := by
  have h := List.map_inj_left (f := f) (g := id) (l := as)
  rwa [List.map_id] at h

namespace Entries

theorem sorted_iff {entries : List (String × α)} :
    Sorted entries ↔ (entries.map Prod.fst).Pairwise (· < ·) := List.pairwise_map.symm

theorem sorted_map_snd {f : α → β} {entries : List (String × α)} :
    Sorted (entries.map fun e => (e.1, f e.2)) ↔ Sorted entries := by
  rw [sorted_iff, sorted_iff, List.map_map, Function.comp_def]

end Entries

namespace FieldMap

/-- Replaces every value, under the same names. -/
def mapValues (f : Value → Value) (row : FieldMap) : FieldMap :=
  ⟨row.entries.map fun e => (e.1, f e.2), Entries.sorted_map_snd.mpr row.sorted⟩

end FieldMap

/-! ### Member by member -/

namespace Json

@[simp] theorem toValues_eq_map (items : List Json) : toValues items = items.map toValue := by
  induction items with
  | nil => rfl
  | cons j items ih => rw [toValues, ih, List.map_cons]

@[simp] theorem toEntries_eq_map (members : List (String × Json)) :
    toEntries members = members.map fun e => (e.1, e.2.toValue) := by
  induction members with
  | nil => rfl
  | cons e members ih => rw [toEntries, ih, List.map_cons]

end Json

namespace Value

@[simp] theorem toJsonItems_eq_map (items : List Value) :
    toJsonItems items = items.map toJson := by
  induction items with
  | nil => rfl
  | cons v items ih => rw [toJsonItems, ih, List.map_cons]

@[simp] theorem toJsonMembers_eq_map (entries : List (String × Value)) :
    toJsonMembers entries = entries.map fun e => (e.1, e.2.toJson) := by
  induction entries with
  | nil => rfl
  | cons e entries ih => rw [toJsonMembers, ih, List.map_cons]

@[simp] theorem bridgedItems_eq_map (items : List Value) :
    bridgedItems items = items.map bridged := by
  induction items with
  | nil => rfl
  | cons v items ih => rw [bridgedItems, ih, List.map_cons]

@[simp] theorem bridgedEntries_eq_map (entries : List (String × Value)) :
    bridgedEntries entries = entries.map fun e => (e.1, e.2.bridged) := by
  induction entries with
  | nil => rfl
  | cons e entries ih => rw [bridgedEntries, ih, List.map_cons]

end Value

/-! ### Numbers -/

/-- A number is read as the first of three variants that takes it, and each writes it back. -/
theorem JsonNumber.toJson_toValue (n : JsonNumber) : n.toValue.toJson = .number n := by
  unfold toValue
  cases hi : n.int64? with
  | some i => simp [Value.toJson, ofInt64_of_int64? hi]
  | none =>
    cases n with
    | nonnegative n => rfl
    | negative n h => cases hi
    | double x h => simp [uint64?, toBinary64, Value.toJson, Json.ofBinary64, h]

theorem JsonNumber.toValue_ofInt64 (n : Int64) : (ofInt64 n).toValue = .int n := by
  rw [toValue, int64?_ofInt64]

theorem JsonNumber.toValue_nonnegative (n : UInt64) :
    (nonnegative n).toValue = (Value.uint n).bridged := by
  rw [toValue, int64?, uint64?, Value.bridged]
  split <;> simp_all

theorem Json.toValue_ofBinary64 (x : Binary64) :
    (Json.ofBinary64 x).toValue = (Value.float x).bridged := by
  rw [Json.ofBinary64, Value.bridged]
  split <;> rfl

/-! ### Both ways -/

/-- Reading loses nothing. -/
theorem Json.toJson_toValue (j : Json) : j.toValue.toJson = j := by
  induction j using Json.induct with
  | null => rfl
  | bool b => rfl
  | number n => exact n.toJson_toValue
  | text s => rfl
  | array items ih =>
    rw [toValue, Value.toJson, toValues_eq_map, Value.toJsonItems_eq_map, List.map_map]
    exact congrArg Json.array (map_eq_self_iff.mpr ih)
  | object members ih =>
    rw [toValue, Value.toJson, toEntries_eq_map, Value.toJsonMembers_eq_map, List.map_map]
    exact congrArg Json.object (map_eq_self_iff.mpr fun e he => Prod.ext rfl (ih e he))

namespace Value

/-- Writing and reading bridges a value. -/
theorem toValue_toJson (v : Value) : v.toJson.toValue = v.bridged := by
  induction v using induct with
  | null => rfl
  | bool b => rfl
  | int n => exact JsonNumber.toValue_ofInt64 n
  | uint n => exact JsonNumber.toValue_nonnegative n
  | float x => exact Json.toValue_ofBinary64 x
  | text s => rfl
  | list items ih =>
    rw [toJson, Json.toValue, bridged, toJsonItems_eq_map, Json.toValues_eq_map,
      bridgedItems_eq_map, List.map_map]
    exact congrArg Value.list (List.map_congr_left ih)
  | map entries ih =>
    rw [toJson, Json.toValue, bridged, toJsonMembers_eq_map, Json.toEntries_eq_map,
      bridgedEntries_eq_map, List.map_map]
    exact congrArg Value.map (List.map_congr_left fun e he => Prod.ext rfl (ih e he))

theorem bridged_bridged (v : Value) : v.bridged.bridged = v.bridged := by
  rw [← toValue_toJson v, ← toValue_toJson, Json.toJson_toValue]

/-- Bridging replaces this value by another. -/
def isReplaced : Value → Bool
  | .float x => !x.isFinite
  | .uint n => n.toNat ≤ Int64.maxValue.toInt
  | _ => false

/-- A value is another one or somewhere inside it. -/
inductive Occurs (v : Value) : Value → Prop
  | self : Occurs v v
  | item {w : Value} {items : List Value} (hm : w ∈ items) (h : Occurs v w) :
    Occurs v (.list items)
  | entry {e : String × Value} {entries : List (String × Value)} (hm : e ∈ entries)
    (h : Occurs v e.2) : Occurs v (.map entries)

/-! ### What is replaced -/

variable {P : Value → Prop} {v w : Value} {items : List Value} {entries : List (String × Value)}

theorem forall_occurs_list_iff : (∀ v, v.Occurs (.list items) → P v) ↔
    P (.list items) ∧ ∀ w ∈ items, ∀ v, v.Occurs w → P v := by
  constructor
  · exact fun h => ⟨h _ .self, fun w hm v hv => h v (.item hm hv)⟩
  · rintro ⟨hself, hitems⟩ v (_ | ⟨hm, hv⟩)
    · exact hself
    · exact hitems _ hm v hv

theorem forall_occurs_map_iff : (∀ v, v.Occurs (.map entries) → P v) ↔
    P (.map entries) ∧ ∀ e ∈ entries, ∀ v, v.Occurs e.2 → P v := by
  constructor
  · exact fun h => ⟨h _ .self, fun e hm v hv => h v (.entry hm hv)⟩
  · rintro ⟨hself, hentries⟩ v (_ | _ | ⟨hm, hv⟩)
    · exact hself
    · exact hentries _ hm v hv

/-- Only lists and records have anything inside. -/
theorem forall_occurs_leaf_iff (hlist : ∀ items, w ≠ .list items)
    (hmap : ∀ entries, w ≠ .map entries) : (∀ v, v.Occurs w → P v) ↔ P w := by
  constructor
  · exact fun h => h w .self
  · rintro hself v (_ | ⟨hm, -⟩ | ⟨hm, -⟩)
    · exact hself
    · exact absurd rfl (hlist _)
    · exact absurd rfl (hmap _)

theorem bridged_uint (n : UInt64) : (uint n).bridged =
    if n.toNat ≤ Int64.maxValue.toInt then .int (Int64.ofInt n.toNat) else .uint n := by
  have hmax : Int64.maxValue.toInt = 9223372036854775807 := by decide
  rw [bridged, hmax]
  congr 1
  rw [eq_iff_iff]
  omega

theorem bridged_leaf_eq_self_iff (hlist : ∀ items, v ≠ .list items)
    (hmap : ∀ entries, v ≠ .map entries) : v.bridged = v ↔ v.isReplaced = false := by
  cases v with
  | uint n => rw [bridged_uint, isReplaced]; split <;> simp_all
  | float x => rw [bridged, isReplaced]; split <;> simp_all
  | list items => exact absurd rfl (hlist items)
  | map entries => exact absurd rfl (hmap entries)
  | _ => simp [bridged, isReplaced]

/-- A value stays as it is where nothing inside is replaced. -/
theorem bridged_eq_self_iff (v : Value) :
    v.bridged = v ↔ ∀ w : Value, w.Occurs v → w.isReplaced = false := by
  induction v using induct with
  | list items ih =>
    rw [forall_occurs_list_iff, bridged, bridgedItems_eq_map, list.injEq, map_eq_self_iff,
      forall₂_congr ih]
    exact (and_iff_right rfl).symm
  | map entries ih =>
    rw [forall_occurs_map_iff, bridged, bridgedEntries_eq_map, map.injEq, map_eq_self_iff]
    simp only [Prod.ext_iff, true_and]
    rw [forall₂_congr ih]
    exact (and_iff_right rfl).symm
  | _ => rw [forall_occurs_leaf_iff (by simp) (by simp), bridged_leaf_eq_self_iff (by simp) (by simp)]

/-- The signed integer is the same number. -/
theorem numeric?_bridged_uint (n : UInt64) :
    (uint n).bridged.numeric? = (uint n).numeric? := by
  rw [bridged_uint]
  split
  · next h =>
    have hmax : Int64.maxValue.toInt = 9223372036854775807 := by decide
    have hn : (Int64.ofInt n.toNat).toInt = n.toNat :=
      Int64.toInt_ofInt_of_le (by omega) (by omega)
    rw [numeric?, numeric?, hn]
  · rfl

end Value

/-! ### Mappings -/

theorem Json.mapping_toJson (row : FieldMap) :
    Json.mapping row.toJson = .ok (row.mapValues Value.bridged) := by
  have hvalue : row.toJson.toValue = .map (row.mapValues Value.bridged).entries := by
    rw [FieldMap.toJson, Value.toValue_toJson, FieldMap.toValue, Value.bridged,
      Value.bridgedEntries_eq_map, FieldMap.mapValues]
  rw [mapping, hvalue]
  simp only [FieldMap.ofEntries_entries]

/-- A document comes back as it was, a value bridged, for good, and unchanged just when nothing
inside is replaced; a record comes back as a mapping, with the order of its names. -/
theorem Value.bridge_lossless (j : Json) (v : Value) (row : FieldMap) (n : UInt64) :
    j.toValue.toJson = j ∧ v.toJson.toValue = v.bridged ∧ v.bridged.bridged = v.bridged ∧
      (v.toJson.toValue = v ↔ ∀ w : Value, w.Occurs v → w.isReplaced = false) ∧
      (Value.uint n).bridged.numeric? = (Value.uint n).numeric? ∧
      Json.mapping row.toJson = .ok (row.mapValues Value.bridged) ∧
      (∀ members, Entries.Sorted (Json.toEntries members) ↔ Entries.Sorted members) ∧
      ∀ entries, Entries.Sorted (Value.toJsonMembers entries) ↔ Entries.Sorted entries := by
  refine ⟨j.toJson_toValue, v.toValue_toJson, v.bridged_bridged, ?_, numeric?_bridged_uint n,
    Json.mapping_toJson row, fun members => ?_, fun entries => ?_⟩
  · rw [v.toValue_toJson, v.bridged_eq_self_iff]
  · rw [Json.toEntries_eq_map, Entries.sorted_map_snd]
  · rw [Value.toJsonMembers_eq_map, Entries.sorted_map_snd]

end PathQuery
