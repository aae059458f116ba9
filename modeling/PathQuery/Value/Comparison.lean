import PathQuery.Binary64.Rounding
import PathQuery.Value.Basic

/-! The comparisons of queries and keys. Integers of both kinds are compared exactly; as
soon as a double takes part, an integer is rounded to a double first. Texts, truth values,
lists and records compare with their own kind only, and null with nothing. Equality does
not depend on the order of its sides, and it agrees with the order where both are
defined. -/

namespace PathQuery

/-- A number as comparisons see it. -/
inductive Numeric
  | exact (n : Int)
  | double (x : Binary64)

namespace Numeric

def toBinary64 : Numeric → Binary64
  | .exact n => Binary64.ofInt n
  | .double x => x

/-- The order of two numbers; undefined when a double is not a number. -/
def order? : Numeric → Numeric → Option Ordering
  | .exact a, .exact b => some (compare a b)
  | a, b => a.toBinary64.order? b.toBinary64

theorem order?_swap (a b : Numeric) : b.order? a = (a.order? b).map Ordering.swap := by
  cases a <;> cases b <;> simp only [order?, Option.map_some]
  · exact congrArg some Std.OrientedCmp.eq_swap
  all_goals exact Binary64.order?_swap _ _

end Numeric

namespace Value

def numeric? : Value → Option Numeric
  | .int n => some (.exact n.toInt)
  | .uint n => some (.exact n.toNat)
  | .float x => some (.double x)
  | _ => none

/-- The equality of queries; undefined for null and for two kinds that do not compare. -/
def equal? (a b : Value) : Option Bool :=
  match a.numeric?, b.numeric? with
  | some x, some y => (x.order? y).map (· == .eq)
  | _, _ =>
    match a, b with
    | .bool x, .bool y => some (x == y)
    | .text x, .text y => some (x == y)
    | .list x, .list y => some (sameItems x y)
    | .map x, .map y => some (sameEntries x y)
    | _, _ => none

/-- Both values are defined and equal. -/
def equals (a b : Value) : Bool := a.equal? b == some true

/-- The order of numbers, texts and truth values; undefined for everything else. -/
def order? (a b : Value) : Option Ordering :=
  match a.numeric?, b.numeric? with
  | some x, some y => x.order? y
  | _, _ =>
    match a, b with
    | .bool x, .bool y => some (compare x y)
    | .text x, .text y => some (compare x y)
    | _, _ => none

/-- Membership among the items: true at an equal one, else false when any compares. -/
def amongItems? (a : Value) : List Value → Option Bool
  | [] => none
  | item :: items =>
    match a.equal? item with
    | some true => some true
    | some false => some ((amongItems? a items).getD false)
    | none => amongItems? a items

/-- Membership in a list value; undefined when the other value is no list. -/
def among? (a : Value) : Value → Option Bool
  | .list items => a.amongItems? items
  | _ => none

theorem amongItems?_eq_some_true {a : Value} {items : List Value} :
    a.amongItems? items = some true ↔ ∃ item ∈ items, a.equals item = true := by
  induction items with
  | nil => simp [amongItems?]
  | cons item items ih =>
    rw [amongItems?]
    rcases h : a.equal? item with _ | _ | _
    · simpa [equals, h] using ih
    · have hi : a.equals item = false := by simp [equals, h]
      simp only [List.mem_cons, exists_eq_or_imp, hi, Bool.false_eq_true, false_or, ← ih]
      cases a.amongItems? items <;> simp
    · simp [equals, h]

mutual

theorem same_comm : ∀ a b : Value, a.same b = b.same a
  | .float x, b => by cases b <;> simp [same, Binary64.same_comm]
  | .list x, b => by cases b <;> simp [same, sameItems_comm x]
  | .map x, b => by cases b <;> simp [same, sameEntries_comm x]
  | .null, b => by cases b <;> simp [same]
  | .bool x, b => by cases b <;> simp [same, Bool.beq_comm]
  | .int x, b => by cases b <;> simp [same, BEq.comm]
  | .uint x, b => by cases b <;> simp [same, BEq.comm]
  | .text x, b => by cases b <;> simp [same, BEq.comm]

theorem sameItems_comm : ∀ a b : List Value, sameItems a b = sameItems b a
  | [], b => by cases b <;> simp [sameItems]
  | x :: xs, [] => by simp [sameItems]
  | x :: xs, y :: ys => by rw [sameItems, sameItems, same_comm x y, sameItems_comm xs ys]

theorem sameEntries_comm : ∀ a b : List (String × Value), sameEntries a b = sameEntries b a
  | [], b => by cases b <;> simp [sameEntries]
  | (k, x) :: xs, [] => by simp [sameEntries]
  | (k, x) :: xs, (l, y) :: ys => by
    rw [sameEntries, sameEntries, same_comm x y, sameEntries_comm xs ys, BEq.comm]

end

theorem equal?_comm (a b : Value) : a.equal? b = b.equal? a := by
  rcases ha : a.numeric? with _ | x <;> rcases hb : b.numeric? with _ | y
  · simp only [equal?, ha, hb]
    cases a <;> cases b <;> simp [sameItems_comm, sameEntries_comm, BEq.comm]
  · simp only [equal?, ha, hb]
    cases b <;> cases a <;> simp_all [numeric?]
  · simp only [equal?, ha, hb]
    cases b <;> cases a <;> simp_all [numeric?]
  · simp only [equal?, ha, hb, Numeric.order?_swap x y]
    rcases x.order? y with _ | o
    · rfl
    · cases o <;> rfl

/-- Nothing equals null. -/
theorem isNull_of_equal? {a b : Value} (h : a.equal? b = some true) : a.isNull = false := by
  cases a with
  | null => cases b <;> simp [equal?, numeric?] at h
  | _ => rfl

end Value

end PathQuery
