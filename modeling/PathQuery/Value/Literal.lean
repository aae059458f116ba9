import PathQuery.Binary64.Decimal
import PathQuery.Text.Quoted
import PathQuery.Value.Basic

/-! Values as they stand in query text. A quote inside a text is doubled, lists stand in
parentheses and records in braces, and items are kept apart by a comma and a blank. -/

namespace PathQuery

/-- The decimal digits of an integer, after a minus sign when it is negative. -/
def integerChars (n : Int) : List Char :=
  if n < 0 then '-' :: Nat.toDigits 10 n.natAbs else Nat.toDigits 10 n.natAbs

namespace Value

mutual

def literalChars : Value → List Char
  | .null => "NULL".toList
  | .bool b => if b then "TRUE".toList else "FALSE".toList
  | .int n => integerChars n.toInt
  | .uint n => integerChars n.toNat
  | .float x => x.toText.toList
  | .text s => Quoted.quote s
  | .list items => '(' :: literalItems items ++ [')']
  | .map entries => '{' :: literalEntries entries ++ ['}']

def literalItems : List Value → List Char
  | [] => []
  | [v] => literalChars v
  | v :: w :: vs => literalChars v ++ ", ".toList ++ literalItems (w :: vs)

def literalEntries : List (String × Value) → List Char
  | [] => []
  | [(k, v)] => k.toList ++ ": ".toList ++ literalChars v
  | (k, v) :: e :: es =>
    k.toList ++ ": ".toList ++ literalChars v ++ ", ".toList ++ literalEntries (e :: es)

end

/-- The value in query text. -/
def literal (v : Value) : String := String.ofList v.literalChars

end Value

end PathQuery
