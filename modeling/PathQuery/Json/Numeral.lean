import PathQuery.Binary64.Decimal
import PathQuery.Json

/-! Numbers as documents write them. An integer of 64 bits is taken as it is, and one out
of range is the nearest double. Digits with a point or an exponent are read in steps that
each round: the digits first, then the power of ten they are counted in, so that the last
bit may differ from the nearest double. A double is written with the fewest digits that
name it, always with a point or an exponent, so that it is not taken for an integer. -/

namespace PathQuery

-- a power is the core library's, whatever else is in scope
attribute [local instance (high)] instPowNat

namespace Decimal

/-- The largest power of ten with a finite double. -/
def topPower : Nat := 308

/-- The double nearest to a power of ten. -/
def power (n : Nat) : Binary64 := toBinary64 ⟨false, 1, n⟩

/-- Division by a power of ten, the largest finite one at a time. -/
def shiftDown (x : Binary64) (places : Nat) : Binary64 :=
  if x.magnitude = 0 then x
  else if places ≤ topPower then x.div (power places)
  else shiftDown (x.div (power topPower)) (places - topPower)
termination_by places
decreasing_by simp only [topPower] at *; omega

/-- The digits as a double, then scaled by a power of ten. -/
def inSteps (d : Decimal) : Binary64 :=
  let x := Binary64.ofRatio d.negative d.digits 1
  if d.exponent < 0 then shiftDown x (-d.exponent).toNat
  else if x.magnitude = 0 then x
  else if topPower < d.exponent.toNat then Binary64.infinity d.negative
  else x.mul (power d.exponent.toNat)

end Decimal

namespace Binary64

/-- The numeral of a finite number. The digits stand around the point as long as the first
of them is at most five places behind it and at most sixteen stand before it; otherwise the
point follows the first digit. Of two equally near numerals the even one is written. -/
def numeral (x : Binary64) : String :=
  let (digits, exponent) := shortestDigits .even x.magnitude
  let cs := Nat.toDigits 10 digits
  let top := (cs.length : Int) + exponent
  let number :=
    if x.magnitude = 0 then "0.0".toList
    else if -5 < top ∧ top ≤ 16 then
      positional cs exponent ++ (if 0 ≤ exponent then ".0".toList else [])
    else
      positional cs (1 - (cs.length : Int)) ++
        'e' :: ((if 0 < top then ['+'] else []) ++ (toString (top - 1)).toList)
  String.ofList (if x.isNegative then '-' :: number else number)

end Binary64

namespace JsonNumber

/-- A finite double as a number. -/
def ofBinary64? (x : Binary64) : Option JsonNumber :=
  if h : x.isFinite = true then some (.double x h) else none

/-- The form of an integer; negative zero is a double. -/
def ofInteger? (minus : Bool) (n : Nat) : Option JsonNumber :=
  if minus then
    if 0 < n ∧ n ≤ 2 ^ (63 : Nat) then some (ofInt64 (Int64.ofInt (-(n : Int))))
    else ofBinary64? (Binary64.ofRatio true n 1)
  else if n < 2 ^ (64 : Nat) then some (.nonnegative (UInt64.ofNat n))
  else ofBinary64? (Binary64.ofRatio false n 1)

/-- Reads a numeral; one beyond all finite doubles is refused. -/
def ofText? (text : String) : Option JsonNumber :=
  let (minus, cs) := Decimal.readSign text.toList
  match Decimal.readDigits cs 0 0 with
  | (_, 0, _) => none
  | (n, _, []) => ofInteger? minus n
  | _ => (Decimal.readUnsigned minus cs).bind fun d => ofBinary64? d.inSteps

/-- The numeral of a number. -/
def toText : JsonNumber → String
  | .nonnegative n => toString n.toNat
  | .negative n _ => toString n.toInt
  | .double x _ => x.numeral

example : (ofText? "18446744073709551615").map toText = some "18446744073709551615" := by
  decide +kernel

example : (ofText? "18446744073709551616").map toText = some "1.8446744073709552e+19" := by
  decide +kernel

example : (ofText? "-0").map toText = some "-0.0" := by decide +kernel

example : (ofText? "1e-5").map toText = some "0.00001" := by decide +kernel

example : (ofText? "0.25e-5").map toText = some "2.5e-6" := by decide +kernel

example : (ofText? "9999999999999998").map toText = some "9999999999999998" := by decide +kernel

example : (ofText? "1e15").map toText = some "1000000000000000.0" := by decide +kernel

example : (ofText? "1e16").map toText = some "1e+16" := by decide +kernel

example : (ofText? "1e309").map toText = none := by decide +kernel

-- two shortest numerals are equally near
example : (ofText? "2.98023223876953125e-8").map toText = some "2.9802322387695312e-8" := by
  decide +kernel

end JsonNumber

end PathQuery
