import PathQuery.Proofs.Bridging
import PathQuery.Value.Untagged

/-! The untagged form against the bridge. Reading tries the variants, the bridge asks for the
form of a number, and both come to the same: signed integers are tried before unsigned ones and
both before doubles, which accept any number, so a number is a double only if it is no integer
in either range. Of the data format no more is used than what it accepts as each kind of part,
and what it writes for each. -/

namespace PathQuery

/-- What is accepted as each kind of part: only null as the unit, only truth values and texts as
such, only integers in range as integers, and as a double any number, a double as it is. -/
structure Reader.Lawful (r : Reader) : Prop where
  unit : ∀ j, r.unit j = true ↔ j = .null
  bool : ∀ j b, r.bool j = some b ↔ j = .bool b
  int64 : ∀ j i, r.int64 j = some i ↔ ∃ n, j = .number n ∧ n.int64? = some i
  uint64 : ∀ j u, r.uint64 j = some u ↔ ∃ n, j = .number n ∧ n.uint64? = some u
  number : ∀ j, (r.binary64 j).isSome = true ↔ ∃ n, j = .number n
  double : ∀ x h, r.binary64 (.number (.double x h)) = some x
  text : ∀ j s, r.text j = some s ↔ j = .text s

/-- What is written for each kind of part: an integer by its sign, and null for a double that is
not finite. -/
structure Writer.Lawful (w : Writer Json) : Prop where
  unit : w.unit = .null
  bool : ∀ b, w.bool b = .bool b
  int64 : ∀ i, w.int64 i = .number (.ofInt64 i)
  uint64 : ∀ u, w.uint64 u = .number (.nonnegative u)
  finite : ∀ x h, w.binary64 x = .number (.double x h)
  infinite : ∀ x, x.isFinite = false → w.binary64 x = .null
  text : ∀ s, w.text s = .text s
  sequence : ∀ items, w.sequence items = .array items
  record : ∀ members, w.record members = .object members

theorem Json.lawful_reader : Json.reader.Lawful where
  unit j := by cases j <;> simp [reader]
  bool j b := by cases j <;> simp [reader]
  int64 j i := by cases j <;> simp [reader]
  uint64 j u := by cases j <;> simp [reader]
  number j := by cases j <;> simp [reader]
  double _ _ := rfl
  text j s := by cases j <;> simp [reader]

theorem Json.lawful_writer : Json.writer.Lawful where
  unit := rfl
  bool _ := rfl
  int64 _ := rfl
  uint64 _ := rfl
  finite _ h := dif_pos h
  infinite _ h := dif_neg (Bool.eq_false_iff.mp h)
  text _ := rfl
  sequence _ := rfl
  record _ := rfl

/-! ### What is accepted

All but doubles are accepted in one way only, so there `Json.reader` may stand for any other. -/

/-- Partial readers that accept the same documents as the same things are one. -/
theorem Reader.eq_of_accepts {α : Type} {read other : Json → Option α} {Accepts : Json → α → Prop}
    (hr : ∀ j a, read j = some a ↔ Accepts j a) (ho : ∀ j a, other j = some a ↔ Accepts j a) :
    read = other :=
  funext fun j => Option.ext fun a => (hr j a).trans (ho j a).symm

namespace Reader.Lawful

variable {r : Reader}

theorem unit_eq (hr : r.Lawful) : r.unit = Json.reader.unit :=
  funext fun j => Bool.eq_iff_iff.mpr ((hr.unit j).trans (Json.lawful_reader.unit j).symm)

theorem binary64_eq_none (hr : r.Lawful) {j : Json} (h : ∀ n, j ≠ .number n) :
    r.binary64 j = none := by
  rw [← Option.not_isSome_iff_eq_none, hr.number]
  rintro ⟨n, rfl⟩
  exact h n rfl

end Reader.Lawful

theorem Writer.Lawful.binary64_eq {w : Writer Json} (hw : w.Lawful) (x : Binary64) :
    w.binary64 x = .ofBinary64 x := by
  unfold Json.ofBinary64
  split
  · next h => exact hw.finite x h
  · next h => exact hw.infinite x (Bool.eq_false_iff.mpr h)

namespace Value

variable {r : Reader} {w : Writer Json}

/-! ### Reading -/

/-- A document without parts is accepted by the variant of its kind first, a number by that of
its form; one with parts is accepted by none. -/
theorem findSome?_variants (hr : r.Lawful) (j : Json) :
    ((variants r).findSome? fun accept => accept j) =
      match j with
      | .null => some .null
      | .bool b => some (.bool b)
      | .number n => some n.toValue
      | .text s => some (.text s)
      | .array _ | .object _ => none := by
  have hx := hr.binary64_eq_none (j := j)
  have hj := Json.lawful_reader
  simp only [variants, hr.unit_eq, Reader.eq_of_accepts hr.bool hj.bool,
    Reader.eq_of_accepts hr.int64 hj.int64, Reader.eq_of_accepts hr.uint64 hj.uint64,
    Reader.eq_of_accepts hr.text hj.text]
  cases j with
  | null | bool => rfl
  | text | array | object => simp [Json.reader, hx]
  | number n =>
    unfold JsonNumber.toValue
    cases hi : n.int64? with
    | some i => simp [Json.reader, hi]
    | none =>
      cases hu : n.uint64? with
      | some u => simp [Json.reader, hi, hu]
      | none =>
        -- no integer in either range: left are the doubles
        cases n with
        | nonnegative n => cases hu
        | negative n h => cases hi
        | double x h => simp [Json.reader, hi, hu, hr.double, JsonNumber.toBinary64]

theorem readItemsBy_eq_some {items : List Json} (h : ∀ j ∈ items, readBy r j = some j.toValue) :
    readItemsBy r items = some (Json.toValues items) := by
  induction items with
  | nil => rfl
  | cons j items ih =>
    obtain ⟨hj, hi⟩ := List.forall_mem_cons.mp h
    rw [readItemsBy, hj, ih hi, Json.toValues]
    rfl

theorem readMembersBy_eq_some {members : List (String × Json)}
    (h : ∀ e ∈ members, readBy r e.2 = some e.2.toValue) :
    readMembersBy r members = some (Json.toEntries members) := by
  induction members with
  | nil => rfl
  | cons e members ih =>
    obtain ⟨he, hm⟩ := List.forall_mem_cons.mp h
    rw [readMembersBy, he, ih hm, Json.toEntries]
    rfl

theorem readBy_eq_some (hr : r.Lawful) (j : Json) : readBy r j = some j.toValue := by
  induction j using Json.induct with
  | null | bool | number | text => simp [readBy, findSome?_variants hr, Json.toValue]
  | array items ih => rw [readBy, findSome?_variants hr, readItemsBy_eq_some ih]; rfl
  | object members ih => rw [readBy, findSome?_variants hr, readMembersBy_eq_some ih]; rfl

/-! ### Writing -/

@[simp] theorem writeItems_eq_map {α : Type} (w : Writer α) (items : List Value) :
    writeItems w items = items.map (write w) := by
  induction items with
  | nil => rfl
  | cons v items ih => rw [writeItems, ih, List.map_cons]

@[simp] theorem writeEntries_eq_map {α : Type} (w : Writer α) (entries : List (String × Value)) :
    writeEntries w entries = entries.map fun e => (e.1, write w e.2) := by
  induction entries with
  | nil => rfl
  | cons e entries ih => rw [writeEntries, ih, List.map_cons]

theorem write_eq_toJson (hw : w.Lawful) (v : Value) : write w v = v.toJson := by
  induction v using induct with
  | null => exact hw.unit
  | bool b => exact hw.bool b
  | int n => exact hw.int64 n
  | uint n => exact hw.uint64 n
  | float x => exact Writer.Lawful.binary64_eq hw x
  | text s => exact hw.text s
  | list items ih =>
    rw [write, hw.sequence, toJson, writeItems_eq_map, toJsonItems_eq_map]
    exact congrArg Json.array (List.map_congr_left ih)
  | map entries ih =>
    rw [write, hw.record, toJson, writeEntries_eq_map, toJsonMembers_eq_map]
    exact congrArg Json.object (List.map_congr_left fun e he => Prod.ext rfl (ih e he))

/-! ### The agreement -/

/-- Whatever document is read in the untagged form becomes the value of the bridge, and whatever
value is written becomes its document. -/
theorem untagged_agrees (hr : r.Lawful) (hw : w.Lawful) :
    (∀ j : Json, readBy r j = some j.toValue) ∧ ∀ v : Value, write w v = v.toJson :=
  ⟨readBy_eq_some hr, write_eq_toJson hw⟩

/-- The largest integer comes back unsigned and a negative one, further inside, signed. -/
theorem untagged_agrees_integers :
    read (.array [.number (.nonnegative 18446744073709551615),
        .object [("n", .number (.ofInt64 (-1)))]]) =
        some (.list [.uint 18446744073709551615, .map [("n", .int (-1))]]) ∧
      write Json.writer (.list [.uint 3, .float (.infinity true)]) =
        .array [.number (.nonnegative 3), .null] := by
  obtain ⟨hr, hw⟩ := untagged_agrees Json.lawful_reader Json.lawful_writer
  exact ⟨(hr _).trans rfl, (hw _).trans rfl⟩

end Value

end PathQuery
