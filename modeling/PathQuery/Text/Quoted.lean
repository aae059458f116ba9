/-! Quoted texts: a quote inside is written twice, so the quote that stands alone ends the
text. Reading takes back exactly what writing gives, in front of anything that does not
begin with a quote. -/

namespace PathQuery

namespace Quoted

/-- Doubles every quote. -/
def encode : List Char → List Char
  | [] => []
  | c :: cs => if c = '\'' then '\'' :: '\'' :: encode cs else c :: encode cs

/-- Takes a text off the front, up to the quote that stands alone, and that quote. -/
def decode : List Char → Option (List Char × List Char)
  | [] => none
  | '\'' :: '\'' :: cs => (decode cs).map fun (text, rest) => ('\'' :: text, rest)
  | c :: cs =>
    if c = '\'' then some ([], cs) else (decode cs).map fun (text, rest) => (c :: text, rest)

/-- A text between quotes. -/
def quote (text : String) : List Char := '\'' :: encode text.toList ++ ['\'']

theorem decode_encode (text rest : List Char) (h : rest.head? ≠ some '\'') :
    decode (encode text ++ '\'' :: rest) = some (text, rest) := by
  induction text with
  | nil =>
    cases rest with
    | nil => simp [encode, decode]
    | cons c rest =>
      have hc : c ≠ '\'' := by simpa using h
      simp [encode, decode, hc]
  | cons c text ih =>
    by_cases hc : c = '\'' <;> simp [encode, decode, hc, ih]

end Quoted

end PathQuery
