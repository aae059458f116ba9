/-! Text cut at a double underscore. The cut runs from the left and marks do not overlap,
so of three underscores the first two are the mark. Joining the segments gives the text
back. -/

namespace PathQuery

namespace Segments

/-- The segment before the first mark and the segments after each mark. -/
def cut : List Char → List Char × List (List Char)
  | '_' :: '_' :: cs =>
    let (first, rest) := cut cs
    ([], first :: rest)
  | c :: cs =>
    let (first, rest) := cut cs
    (c :: first, rest)
  | [] => ([], [])

/-- Segments with a mark between each two. -/
def join : List Char → List (List Char) → List Char
  | first, [] => first
  | first, next :: rest => first ++ '_' :: '_' :: join next rest

theorem join_cut (cs : List Char) : join (cut cs).1 (cut cs).2 = cs := by
  fun_induction cut cs with
  | case1 cs first rest h ih => simpa [join, h] using ih
  | case2 c cs hc first rest h ih =>
    rw [h] at ih
    cases rest with
    | nil => simpa [join] using ih
    | cons next rest => simpa [join] using ih
  | case3 => rfl

end Segments

/-- The segments of a text. -/
def segments (text : String) : List String :=
  let (first, rest) := Segments.cut text.toList
  String.ofList first :: rest.map String.ofList

/-- A text from its segments. -/
def joinSegments : List String → String
  | [] => ""
  | first :: rest => String.ofList (Segments.join first.toList (rest.map String.toList))

theorem joinSegments_segments (text : String) : joinSegments (segments text) = text := by
  simp [joinSegments, segments, Segments.join_cut, Function.comp_def]

end PathQuery
