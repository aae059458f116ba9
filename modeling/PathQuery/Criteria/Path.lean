import PathQuery.Criteria.Error
import PathQuery.Text.Segments

/-! Criteria paths: relationship hops, an attribute, and a comparison, set apart by double
underscores. A last segment that is the token of a comparison is always read as one, so an
attribute of such a name needs a token of its own after it. A path that parses renders
back to its text. -/

namespace PathQuery

structure Path where
  hops : List String
  field : String
  op : CompareOp
  deriving DecidableEq, Repr

namespace Path

/-- The hops, the attribute, and the token of any comparison but equality. -/
def segments (path : Path) : List String :=
  path.hops ++ path.field :: path.op.token?.toList

def render (path : Path) : String := joinSegments path.segments

/-- Takes the comparison off the end of the segments, equality when there is none. -/
def splitOp (segments : List String) : List String × CompareOp :=
  match segments.getLast?.bind CompareOp.ofToken? with
  | some op => (segments.dropLast, op)
  | none => (segments, .eq)

/-- Reads segments as a path, unless they name no attribute. -/
def ofSegments? (segments : List String) : Option Path :=
  let (names, op) := splitOp segments
  names.getLast?.map fun field => ⟨names.dropLast, field, op⟩

def parse (text : String) : Except CriteriaError Path :=
  if text = "" then .error .emptyPath
  else
    let parts := PathQuery.segments text
    if "" ∈ parts then .error (.emptySegment text)
    else match ofSegments? parts with
      | some path => .ok path
      | none => .error (.missingAttribute text)

theorem dropLast_append_of_getLast? {parts : List String} {last : String}
    (h : parts.getLast? = some last) : parts.dropLast ++ [last] = parts := by
  obtain ⟨before, rfl⟩ := List.getLast?_eq_some_iff.mp h
  simp

theorem segments_of_ofSegments? {parts : List String} {path : Path}
    (h : ofSegments? parts = some path) : path.segments = parts := by
  simp only [ofSegments?, Option.map_eq_some_iff] at h
  obtain ⟨field, ha, rfl⟩ := h
  have hs : (splitOp parts).1.dropLast ++ [field] = (splitOp parts).1 :=
    dropLast_append_of_getLast? ha
  simp only [segments, List.append_cons, hs]
  rw [splitOp]
  split
  · next op ho =>
    obtain ⟨token, ht, hop⟩ := Option.bind_eq_some_iff.mp ho
    rw [CompareOp.token?_of_ofToken? hop]
    exact dropLast_append_of_getLast? ht
  · simp [CompareOp.token?]

theorem render_of_parse {text : String} {path : Path} (h : parse text = .ok path) :
    path.render = text := by
  simp only [parse] at h
  split at h
  · cases h
  · split at h
    · cases h
    · split at h
      · next hp =>
        cases h
        rw [render, segments_of_ofSegments? hp, joinSegments_segments]
      · cases h

end Path

end PathQuery
