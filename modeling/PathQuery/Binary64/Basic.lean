/-! Double precision numbers as their 64-bit words. The word without its sign bit
grows with the absolute value, so the signed magnitude orders the numbers as integers
order it, and the two zeros fall together. Words above the infinities are not numbers
and compare with nothing. -/

namespace PathQuery

-- a power is the core library's, whatever else is in scope
attribute [local instance (high)] instPowNat

/-- A double, held as its word: a sign bit, eleven bits of exponent and fifty-two of
fraction. -/
structure Binary64 where
  bits : UInt64
  deriving DecidableEq, Repr, Inhabited

namespace Binary64

/-- The word without its sign bit. -/
def magnitude (x : Binary64) : Nat := x.bits.toNat % 2 ^ (63 : Nat)

def isNegative (x : Binary64) : Bool := decide (2 ^ (63 : Nat) ≤ x.bits.toNat)

/-- The magnitude of the two infinities: every exponent bit set and no fraction. -/
def infinityMagnitude : Nat := 2047 * 2 ^ (52 : Nat)

def isNaN (x : Binary64) : Bool := decide (infinityMagnitude < x.magnitude)

def isFinite (x : Binary64) : Bool := decide (x.magnitude < infinityMagnitude)

def ofMagnitude (negative : Bool) (magnitude : Nat) : Binary64 :=
  ⟨UInt64.ofNat (if negative then 2 ^ (63 : Nat) + magnitude else magnitude)⟩

def infinity (negative : Bool) : Binary64 := ofMagnitude negative infinityMagnitude

def nan : Binary64 := ofMagnitude false (infinityMagnitude + 2 ^ (51 : Nat))

/-- The place of a number in the order of all numbers. -/
def rank (x : Binary64) : Int :=
  if x.isNegative then -(x.magnitude : Int) else (x.magnitude : Int)

/-- The order of two numbers, undefined when either is not a number. -/
def order? (x y : Binary64) : Option Ordering :=
  if x.isNaN || y.isNaN then none else some (compare x.rank y.rank)

/-- Equality of numbers: the two zeros are equal and a word that is no number differs
even from itself. -/
def same (x y : Binary64) : Bool := x.order? y == some .eq

theorem order?_swap (x y : Binary64) : y.order? x = (x.order? y).map Ordering.swap := by
  cases hx : x.isNaN <;> cases hy : y.isNaN <;> simp [order?, hx, hy]
  exact Std.OrientedCmp.eq_swap

theorem same_comm (x y : Binary64) : x.same y = y.same x := by
  rw [same, same, order?_swap x y]
  rcases x.order? y with _ | o
  · rfl
  · cases o <;> rfl

theorem same_iff {x y : Binary64} :
    x.same y = true ↔ x.isNaN = false ∧ y.isNaN = false ∧ x.rank = y.rank := by
  cases hx : x.isNaN <;> cases hy : y.isNaN <;> simp [same, order?, hx, hy]

theorem same_trans {x y z : Binary64} (hxy : x.same y = true) (hyz : y.same z = true) :
    x.same z = true := by
  rw [same_iff] at *
  exact ⟨hxy.1, hyz.2.1, hxy.2.2.trans hyz.2.2⟩

end Binary64

end PathQuery
