import PathQuery.Binary64.Rounding

/-! Decimal text of doubles. Reading rounds the written number once, correctly. Writing
looks for the coarsest decimal grid with a point that reads back as the number: on each
grid only the two neighbours of the number need a test. The digits are laid out
positionally, without exponent and without a fraction where the number has none. -/

namespace PathQuery

-- a power is the core library's, whatever else is in scope
attribute [local instance (high)] instPowNat

/-- A number as written: sign, digits, and the power of ten they are counted in. -/
structure Decimal where
  negative : Bool
  digits : Nat
  exponent : Int
  deriving DecidableEq, Repr

namespace Decimal

/-- Reads digits from the front; the value so far, the number of digits, and the rest. -/
def readDigits : List Char → Nat → Nat → Nat × Nat × List Char
  | [], value, count => (value, count, [])
  | c :: cs, value, count =>
    if c.isDigit then readDigits cs (10 * value + (c.toNat - '0'.toNat)) (count + 1)
    else (value, count, c :: cs)

/-- An optional sign, then whatever follows it. -/
def readSign : List Char → Bool × List Char
  | '-' :: cs => (true, cs)
  | '+' :: cs => (false, cs)
  | cs => (false, cs)

/-- The exponent after the digits; nothing may follow it. -/
def readExponent : List Char → Option Int
  | [] => some 0
  | c :: cs =>
    if c = 'e' ∨ c = 'E' then
      let (negative, cs) := readSign cs
      match readDigits cs 0 0 with
      | (_, 0, _) => none
      | (value, _, []) => some (if negative then -(value : Int) else value)
      | _ => none
    else none

/-- Reads an unsigned number: digits, a point and digits, an exponent; at least one digit
before the exponent. -/
def readUnsigned (negative : Bool) (cs : List Char) : Option Decimal :=
  let (whole, wholeCount, rest) := readDigits cs 0 0
  let (value, places, rest) := match rest with
    | '.' :: rest => readDigits rest whole 0
    | rest => (whole, 0, rest)
  if wholeCount + places = 0 then none
  else (readExponent rest).map fun e => ⟨negative, value, e - (places : Int)⟩

/-- Numbers at or above this power of ten are infinite in every format, and numbers below
its inverse are zero. -/
def range : Int := 400

/-- The magnitude in a format of the written number. -/
def round (format : BinaryFormat) (d : Decimal) : Nat :=
  let places : Int := (Nat.toDigits 10 d.digits).length
  if d.digits = 0 then 0
  else if range < d.exponent + places then format.infinity
  else if d.exponent + places < -range then 0
  else if 0 ≤ d.exponent then format.round (d.digits * 10 ^ d.exponent.toNat) 1
  else format.round d.digits (10 ^ (-d.exponent).toNat)

def toBinary64 (d : Decimal) : Binary64 :=
  Binary64.ofMagnitude d.negative (d.round BinaryFormat.double)

/-- Single precision first, then the equal double. -/
def toSingle (d : Decimal) : Binary64 :=
  Binary64.ofSingle d.negative (d.round BinaryFormat.single)

end Decimal

namespace Binary64

/-- Reads a decimal number, or one of the names of infinity and of what is no number. -/
def readWith (ofDecimal : Decimal → Binary64) (text : String) : Option Binary64 :=
  let (negative, cs) := Decimal.readSign text.toList
  match (String.ofList cs).toLower with
  | "inf" | "infinity" => some (infinity negative)
  | "nan" => some nan
  | _ => (Decimal.readUnsigned negative cs).map ofDecimal

def ofText? (text : String) : Option Binary64 := readWith Decimal.toBinary64 text

/-- Reads a number in single precision. -/
def ofSingleText? (text : String) : Option Binary64 := readWith Decimal.toSingle text

/-- The numbers that round to a given one, from `low` to `high` with the ends when `closed`;
all three counted in `1 / den`. -/
structure Neighbourhood where
  low : Nat
  number : Nat
  high : Nat
  den : Nat
  closed : Bool

/-- The numbers that round to a magnitude. The gap below a power of two is half the gap
above it, and the ends round to an even word only. -/
def neighbourhood (magnitude : Nat) : Neighbourhood :=
  let gap := 2 ^ BinaryFormat.double.step magnitude
  let units := BinaryFormat.double.units magnitude
  let below := if magnitude % 2 ^ (52 : Nat) = 0 ∧ 2 ^ (53 : Nat) ≤ magnitude then gap else 2 * gap
  { low := 4 * units - below
    number := 4 * units
    high := 4 * units + 2 * gap
    den := 2 ^ (BinaryFormat.double.scale + 2)
    closed := decide (magnitude % 2 = 0) }

/-- Which of two equally near texts is written. -/
inductive Tie
  | larger
  | even
  deriving DecidableEq, Repr

/-- Whether the half way point above these digits is written as the next ones. -/
def Tie.goesUp : Tie → Nat → Bool
  | .larger, _ => true
  | .even, digits => digits % 2 == 1

namespace Neighbourhood

/-- The same numbers counted in powers of ten. -/
def inPowers (n : Neighbourhood) (exponent : Int) : Neighbourhood :=
  if 0 ≤ exponent then { n with den := n.den * 10 ^ exponent.toNat }
  else
    let scale := 10 ^ (-exponent).toNat
    { n with low := n.low * scale, number := n.number * scale, high := n.high * scale }

def contains (n : Neighbourhood) (digits : Nat) : Bool :=
  let point := digits * n.den
  if n.closed then decide (n.low ≤ point ∧ point ≤ n.high)
  else decide (n.low < point ∧ point < n.high)

/-- The integer nearest to the number among those that round to it. -/
def nearestDigits? (tie : Tie) (n : Neighbourhood) : Option Nat :=
  let digits := n.number / n.den
  match n.contains digits, n.contains (digits + 1) with
  | true, true =>
    match compare (2 * (n.number % n.den)) n.den with
    | .lt => some digits
    | .eq => some (if tie.goesUp digits then digits + 1 else digits)
    | .gt => some (digits + 1)
  | true, false => some digits
  | false, true => some (digits + 1)
  | false, false => none

/-- An exponent of ten above the number, by at most two. -/
def topExponent (n : Neighbourhood) : Int :=
  (((n.number.log2 : Int) - (n.den.log2 : Int) + 1) * 30103) / 100000 + 1

end Neighbourhood

/-- The fewest digits that read back as the number, with their exponent of ten. Seventeen
always suffice. -/
def shortestDigits (tie : Tie) (magnitude : Nat) : Nat × Int :=
  let n := neighbourhood magnitude
  let hit := (List.range 20).findSome? fun (i : Nat) =>
    let exponent := n.topExponent - (i : Int)
    ((n.inPowers exponent).nearestDigits? tie).map fun digits => (digits, exponent)
  hit.getD (0, 0)

/-- Digits with the point where it belongs. -/
def positional (digits : List Char) (exponent : Int) : List Char :=
  if 0 ≤ exponent then digits ++ List.replicate exponent.toNat '0'
  else
    let places := (-exponent).toNat
    if places < digits.length then
      digits.take (digits.length - places) ++ '.' :: digits.drop (digits.length - places)
    else '0' :: '.' :: (List.replicate (places - digits.length) '0' ++ digits)

/-- The shortest text that reads back as the number; of two equally near the larger. -/
def toText (x : Binary64) : String :=
  let sign := if x.isNegative then "-" else ""
  if x.isNaN then "NaN"
  else if x.isFinite then
    if x.magnitude = 0 then sign ++ "0"
    else
      let (digits, exponent) := shortestDigits .larger x.magnitude
      sign ++ String.ofList (positional (Nat.toDigits 10 digits) exponent)
  else sign ++ "inf"

example : (ofText? "1e21").map toText = some "1000000000000000000000" := by decide +kernel

example : (ofText? "-0.0").map toText = some "-0" := by decide +kernel

example : (ofText? "5e-7").map toText = some "0.0000005" := by decide +kernel

example : (ofText? "9007199254740993").map toText = some "9007199254740992" := by decide +kernel

-- two shortest texts are equally near
example :
    (ofText? "2.98023223876953125e-8").map toText = some "0.000000029802322387695313" := by
  decide +kernel

end Binary64

end PathQuery
