import PathQuery.Binary64.Rounding

/-! JSON documents. A number is a nonnegative integer of 64 bits, a negative one, or a
finite double, and each number has one form. An object lists its members by key. -/

namespace PathQuery

-- a power is the core library's, whatever else is in scope
attribute [local instance (high)] instPowNat

inductive JsonNumber
  | nonnegative (n : UInt64)
  | negative (n : Int64) (h : n < 0)
  | double (x : Binary64) (h : x.isFinite = true)
  deriving DecidableEq, Repr

inductive Json
  | null
  | bool (b : Bool)
  | number (n : JsonNumber)
  | text (s : String)
  | array (items : List Json)
  | object (members : List (String × Json))
  deriving Repr, Inhabited

namespace JsonNumber

/-- The form of a signed integer. -/
def ofInt64 (n : Int64) : JsonNumber :=
  if h : n < 0 then .negative n h else .nonnegative (UInt64.ofNat n.toInt.toNat)

/-- The number as a double; integers are rounded to the nearest. -/
def toBinary64 : JsonNumber → Binary64
  | .nonnegative n => Binary64.ofInt n.toNat
  | .negative n _ => Binary64.ofInt n.toInt
  | .double x _ => x

/-- The number as a signed integer, if it is one and in range. -/
def int64? : JsonNumber → Option Int64
  | .nonnegative n => if n.toNat < 2 ^ (63 : Nat) then some (Int64.ofInt n.toNat) else none
  | .negative n _ => some n
  | .double _ _ => none

/-- The number as an unsigned integer, if it is one and in range. -/
def uint64? : JsonNumber → Option UInt64
  | .nonnegative n => some n
  | _ => none

theorem int64?_ofInt64 (n : Int64) : (ofInt64 n).int64? = some n := by
  unfold ofInt64
  split
  · rfl
  · next h =>
    have hn : 0 ≤ n.toInt := by simpa [Int64.lt_iff_toInt_lt] using h
    have hb := Int64.toInt_lt n
    have hu : (UInt64.ofNat n.toInt.toNat).toNat = n.toInt.toNat :=
      UInt64.toNat_ofNat_of_lt (by simp only [UInt64.size]; omega)
    rw [int64?, hu, if_pos (by omega), Int.toNat_of_nonneg hn, Int64.ofInt_toInt]

theorem ofInt64_of_int64? {n : JsonNumber} {i : Int64} (h : n.int64? = some i) :
    ofInt64 i = n := by
  cases n with
  | nonnegative n =>
    simp only [int64?] at h
    split at h
    · next hb =>
      cases h
      have hi : (Int64.ofInt n.toNat).toInt = n.toNat :=
        Int64.toInt_ofInt_of_le (by omega) (by omega)
      have hn : ¬ Int64.ofInt n.toNat < 0 := by
        rw [Int64.lt_iff_toInt_lt, hi]
        simp
      rw [ofInt64, dif_neg hn, hi]
      simp
    · cases h
  | negative n hn =>
    cases h
    rw [ofInt64, dif_pos hn]
  | double x hx => cases h

end JsonNumber

namespace Json

/-- Induction in which an array or an object may use the property of all its members. -/
@[elab_as_elim]
theorem induct {P : Json → Prop} (null : P .null) (bool : ∀ b, P (.bool b))
    (number : ∀ n, P (.number n)) (text : ∀ s, P (.text s))
    (array : ∀ items, (∀ j ∈ items, P j) → P (.array items))
    (object : ∀ members, (∀ e ∈ members, P e.2) → P (.object members)) (j : Json) : P j := by
  generalize hd : sizeOf j = d
  induction d using Nat.strongRecOn generalizing j with
  | ind d ih =>
    subst hd
    cases j with
    | null => exact null
    | bool b => exact bool b
    | number n => exact number n
    | text s => exact text s
    | array items =>
      refine array items fun j hj => ih _ ?_ j rfl
      have := List.sizeOf_lt_of_mem hj
      simp only [Json.array.sizeOf_spec]
      omega
    | object members =>
      refine object members fun e he => ih _ ?_ e.2 rfl
      have := List.sizeOf_lt_of_mem he
      cases e
      simp only [Json.object.sizeOf_spec, Prod.mk.sizeOf_spec] at *
      omega

/-- A double that is no finite number has no JSON form and becomes null. -/
def ofBinary64 (x : Binary64) : Json :=
  if h : x.isFinite = true then .number (.double x h) else .null

end Json

end PathQuery
