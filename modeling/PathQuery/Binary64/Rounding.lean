import PathQuery.Binary64.Basic

/-! Rounding of nonnegative ratios to a binary interchange format. A ratio is measured in
units of the smallest positive number; the units are then cut to the precision of the
format, half a step going to the even neighbour. The steps taken and the digits kept add
up to the word itself, so a carry into the next power of two needs no case of its own.
Exact products come back unchanged. -/

namespace PathQuery

-- a power is the core library's, whatever else is in scope
attribute [local instance (high)] instPowNat

/-- The integer nearest to `num / den`; half way between two, the even one. -/
def divNearestEven (num den : Nat) : Nat :=
  let quotient := num / den
  let remainder := num % den
  if 2 * remainder < den then quotient
  else if den < 2 * remainder then quotient + 1
  else quotient + quotient % 2

theorem divNearestEven_mul {den : Nat} (n : Nat) (h : 0 < den) :
    divNearestEven (n * den) den = n := by
  simp [divNearestEven, Nat.mul_div_cancel n h, h]

/-- A binary interchange format: how many fraction bits are stored, how far below one its
smallest positive number lies as a power of two, and how many exponents it has. -/
structure BinaryFormat where
  fractionBits : Nat
  scale : Nat
  exponents : Nat

namespace BinaryFormat

def single : BinaryFormat := ⟨23, 149, 255⟩

def double : BinaryFormat := ⟨52, 1074, 2047⟩

/-- The magnitude of infinity. -/
def infinity (format : BinaryFormat) : Nat := format.exponents * 2 ^ format.fractionBits

/-- The magnitude nearest to `num / den`, with ties to even and overflow to infinity. -/
def round (format : BinaryFormat) (num den : Nat) : Nat :=
  let scaled := num * 2 ^ format.scale
  let steps := (scaled / den).log2 - format.fractionBits
  min format.infinity (steps * 2 ^ format.fractionBits + divNearestEven scaled (den * 2 ^ steps))

/-- How far apart neighbouring numbers lie at this magnitude, as a power of two of units. -/
def step (format : BinaryFormat) (magnitude : Nat) : Nat :=
  magnitude / 2 ^ format.fractionBits - 1

/-- The number in units of the smallest positive one. -/
def units (format : BinaryFormat) (magnitude : Nat) : Nat :=
  (magnitude - format.step magnitude * 2 ^ format.fractionBits) * 2 ^ format.step magnitude

end BinaryFormat

namespace Binary64

/-- The double nearest to a ratio. -/
def ofRatio (negative : Bool) (num den : Nat) : Binary64 :=
  ofMagnitude negative (BinaryFormat.double.round num den)

/-- The double nearest to an integer. -/
def ofInt (n : Int) : Binary64 := ofRatio (decide (n < 0)) n.natAbs 1

/-- The absolute value of a finite number, counted in the smallest positive one. -/
def units (x : Binary64) : Nat := BinaryFormat.double.units x.magnitude

/-- The double nearest to the product of two finite ones. -/
def mul (x y : Binary64) : Binary64 :=
  ofRatio (x.isNegative != y.isNegative) (x.units * y.units) (2 ^ (2 * BinaryFormat.double.scale))

/-- The double nearest to the quotient of two finite ones, of which the second is not zero. -/
def div (x y : Binary64) : Binary64 := ofRatio (x.isNegative != y.isNegative) x.units y.units

/-- The double equal to the single precision number of this magnitude. -/
def ofSingle (negative : Bool) (magnitude : Nat) : Binary64 :=
  if magnitude = BinaryFormat.single.infinity then infinity negative
  else ofRatio negative (BinaryFormat.single.units magnitude) (2 ^ BinaryFormat.single.scale)

end Binary64

end PathQuery
