import Mathlib.Logic.Basic
import PathQuery.Criteria.Path

/-! The grammar of criteria paths. A text falls into segments in one way only: each mark that
ends a segment is the first mark in what is left of the text. A list of segments comes back
from its joined text when no segment holds a mark and none but the last ends in an
underscore, which would shift the mark after it. From this follow exactly the paths that
parse, each from its own text alone, and the reason why any other text does not. -/

namespace PathQuery

namespace Segments

/-- What stands between two segments. -/
def mark : List Char := ['_', '_']

/-- A text in pieces; the mark after a piece is the first one from the start of the piece. -/
inductive Splits : List Char → List (List Char) → Prop
  | last {cs : List Char} (h : ¬ mark <:+: cs) : Splits cs [cs]
  | next {piece rest : List Char} {pieces : List (List Char)} (h : ¬ mark <:+: piece ++ ['_'])
    (hr : Splits rest pieces) : Splits (piece ++ mark ++ rest) (piece :: pieces)

variable {c : Char} {cs first piece rest : List Char} {pieces : List (List Char)}

/-! ### Cutting -/

theorem not_infix_cons_iff : ¬ mark <:+: c :: cs ↔ ¬ mark <+: c :: cs ∧ ¬ mark <:+: cs := by
  rw [List.infix_cons_iff, not_or]

/-- Whether a mark begins before a piece is seen from one underscore after the piece. -/
theorem mark_prefix_iff (c : Char) (piece rest : List Char) :
    mark <+: c :: (piece ++ mark ++ rest) ↔ mark <+: c :: (piece ++ ['_']) := by
  cases piece <;> simp [mark]

theorem cut_cons_of_not_marked (h : ¬ mark <+: c :: cs) :
    cut (c :: cs) = (c :: (cut cs).1, (cut cs).2) := by
  rw [cut]
  rintro ds rfl rfl
  exact h ⟨ds, rfl⟩

theorem cut_of_unmarked (h : ¬ mark <:+: cs) : cut cs = (cs, []) := by
  induction cs with
  | nil => rfl
  | cons c cs ih =>
    obtain ⟨hhead, htail⟩ := not_infix_cons_iff.mp h
    rw [cut_cons_of_not_marked hhead, ih htail]

theorem cut_append_mark (h : ¬ mark <:+: piece ++ ['_']) (rest : List Char) :
    cut (piece ++ mark ++ rest) = (piece, (cut rest).1 :: (cut rest).2) := by
  induction piece with
  | nil => simp [mark, cut]
  | cons c piece ih =>
    obtain ⟨hhead, htail⟩ := not_infix_cons_iff.mp h
    have hcut := cut_cons_of_not_marked ((mark_prefix_iff c piece rest).not.mpr hhead)
    rw [ih htail] at hcut
    exact hcut

theorem cut_of_splits (h : Splits cs pieces) : (cut cs).1 :: (cut cs).2 = pieces := by
  induction h with
  | last h => rw [cut_of_unmarked h]
  | next h _ ih => rw [cut_append_mark h, ih]

/-- A character goes to the first piece unless it makes a mark. -/
theorem Splits.cons (h : Splits cs (piece :: pieces)) (hc : ¬ mark <+: c :: cs) :
    Splits (c :: cs) ((c :: piece) :: pieces) := by
  cases h with
  | last h => exact .last (not_infix_cons_iff.mpr ⟨hc, h⟩)
  | @next _ rest _ h hr =>
    have hhead : ¬ mark <+: c :: (piece ++ ['_']) := (mark_prefix_iff c piece rest).not.mp hc
    have hpiece : ¬ mark <:+: c :: piece ++ ['_'] := not_infix_cons_iff.mpr ⟨hhead, h⟩
    exact .next hpiece hr

theorem splits_cut (cs : List Char) : Splits cs ((cut cs).1 :: (cut cs).2) := by
  fun_induction cut cs with
  | case1 cs first rest h ih =>
    rw [h] at ih
    have hnil : ¬ mark <:+: [] ++ ['_'] := by decide
    exact .next hnil ih
  | case2 c cs hc first rest h ih =>
    rw [h] at ih
    apply ih.cons
    rintro ⟨ds, hds⟩
    obtain ⟨rfl, rfl⟩ := List.cons.inj hds
    exact hc ds rfl rfl
  | case3 => exact .last (by decide)

/-- A text splits in one way, the one in which it is cut. -/
theorem splits_iff : Splits cs pieces ↔ (cut cs).1 :: (cut cs).2 = pieces :=
  ⟨cut_of_splits, fun h => h ▸ splits_cut cs⟩

/-! ### Joining -/

theorem mark_suffix_iff : mark <:+ piece ++ ['_'] ↔ piece.getLast? = some '_' := by
  rw [List.suffix_concat_iff, List.getLast?_eq_some_iff]
  constructor
  · rintro (h | ⟨t, ht, before, rfl⟩)
    · cases h
    · obtain rfl : t = ['_'] := (List.append_left_inj ['_']).mp ht.symm
      exact ⟨before, rfl⟩
  · rintro ⟨before, rfl⟩
    exact .inr ⟨['_'], rfl, before, rfl⟩

theorem not_infix_append_iff :
    ¬ mark <:+: piece ++ ['_'] ↔ ¬ mark <:+: piece ∧ piece.getLast? ≠ some '_' := by
  rw [List.infix_concat_iff, mark_suffix_iff, not_or, and_comm]

theorem splits_singleton_iff : Splits cs [piece] ↔ cs = piece ∧ ¬ mark <:+: piece := by
  constructor
  · rintro (h | ⟨_, hr⟩)
    · exact ⟨rfl, h⟩
    · cases hr
  · rintro ⟨rfl, h⟩
    exact .last h

theorem splits_append_mark_iff {next : List Char} :
    Splits (piece ++ mark ++ rest) (piece :: next :: pieces) ↔
      ¬ mark <:+: piece ++ ['_'] ∧ Splits rest (next :: pieces) := by
  constructor
  · intro h
    generalize hcs : piece ++ mark ++ rest = cs at h
    cases h with
    | next h hr => exact ⟨h, (List.append_right_inj _).mp hcs ▸ hr⟩
  · rintro ⟨h, hr⟩
    exact .next h hr

/-- The pieces of a joined text are those it was joined from when no mark comes too early. -/
theorem splits_join_iff :
    Splits (join first pieces) (first :: pieces) ↔
      (∀ piece ∈ first :: pieces, ¬ mark <:+: piece) ∧
        ∀ piece ∈ (first :: pieces).dropLast, piece.getLast? ≠ some '_' := by
  induction pieces generalizing first with
  | nil => simp [join, splits_singleton_iff]
  | cons next pieces ih =>
    have hjoin : join first (next :: pieces) = first ++ mark ++ join next pieces := by
      simp [join, mark]
    rw [hjoin, splits_append_mark_iff, not_infix_append_iff, List.dropLast_cons_cons,
      List.forall_mem_cons (a := first), List.forall_mem_cons (a := first), ih]
    exact and_and_and_comm

end Segments

/-- The text falls into these segments, each up to the first mark that is left. -/
def SplitsInto (text : String) (parts : List String) : Prop :=
  Segments.Splits text.toList (parts.map String.toList)

theorem map_toList_segments (text : String) :
    (segments text).map String.toList
      = (Segments.cut text.toList).1 :: (Segments.cut text.toList).2 := by
  simp [segments, Function.comp_def]

theorem splitsInto_iff {text : String} {parts : List String} :
    SplitsInto text parts ↔ segments text = parts := by
  rw [SplitsInto, Segments.splits_iff, ← map_toList_segments]
  exact List.map_inj_right fun _ _ => String.toList_inj.mp

theorem segments_joinSegments_iff {parts : List String} (h : parts ≠ []) :
    segments (joinSegments parts) = parts ↔
      (∀ part ∈ parts, ¬ Segments.mark <:+: part.toList) ∧
        ∀ part ∈ parts.dropLast, part.toList.getLast? ≠ some '_' := by
  rw [← splitsInto_iff, SplitsInto]
  cases parts with
  | nil => exact absurd rfl h
  | cons first rest =>
    rw [joinSegments, String.toList_ofList, List.map_cons, Segments.splits_join_iff,
      ← List.map_cons, ← List.map_dropLast]
    simp only [List.forall_mem_map]

@[simp] theorem joinSegments_singleton (part : String) : joinSegments [part] = part := by
  simp [joinSegments, Segments.join]

/-- A token is a segment by itself. -/
theorem segments_eq_singleton_iff {text token : String} {op : CompareOp}
    (h : op.token? = some token) : segments text = [token] ↔ text = token := by
  constructor
  · intro hs
    rw [← joinSegments_segments text, hs, joinSegments_singleton]
  · rintro rfl
    have hjoin := segments_joinSegments_iff (List.cons_ne_nil text [])
    rw [joinSegments_singleton] at hjoin
    rw [hjoin, List.forall_mem_singleton]
    constructor
    · cases op <;> cases h <;> decide
    · intro part hp
      cases hp

namespace Path

/-- What the segments of a path are like when the path can be read from its text: none is
empty, the marks between them are where the text is cut, and the attribute of an equality is
not taken for another comparison. -/
structure Canonical (path : Path) : Prop where
  filled : "" ∉ path.segments
  unmarked : ∀ part ∈ path.segments, ¬ Segments.mark <:+: part.toList
  spaced : ∀ part ∈ path.segments.dropLast, part.toList.getLast? ≠ some '_'
  named : path.op = .eq → ∀ op : CompareOp, op.token? ≠ some path.field

variable {text : String} {parts names : List String} {path : Path}

theorem segments_render_iff : PathQuery.segments path.render = path.segments ↔
    (∀ part ∈ path.segments, ¬ Segments.mark <:+: part.toList) ∧
      ∀ part ∈ path.segments.dropLast, part.toList.getLast? ≠ some '_' :=
  segments_joinSegments_iff (by simp [segments])

/-! ### Reading segments -/

theorem splitOp_token {token : String} {op : CompareOp} (h : op.token? = some token) :
    splitOp (names ++ [token]) = (names, op) := by
  simp [splitOp, CompareOp.ofToken?_of_token? h]

theorem splitOp_name {name : String} (h : ∀ op : CompareOp, op.token? ≠ some name) :
    splitOp (names ++ [name]) = (names ++ [name], .eq) := by
  have hnone : CompareOp.ofToken? name = none := by
    rw [Option.eq_none_iff_forall_ne_some]
    exact fun op ho => h op (CompareOp.token?_of_ofToken? ho)
  simp [splitOp, hnone]

theorem token?_eq_none_iff {op : CompareOp} : op.token? = none ↔ op = .eq := by
  cases op <;> decide

theorem ofSegments?_eq_some_iff : ofSegments? parts = some path ↔
    path.segments = parts ∧ (path.op = .eq → ∀ op : CompareOp, op.token? ≠ some path.field) := by
  obtain ⟨hops, field, op⟩ := path
  constructor
  · intro h
    have hparts := segments_of_ofSegments? h
    refine ⟨hparts, ?_⟩
    -- a token in the last place would have been taken for the comparison
    rintro rfl other ho
    rw [← hparts] at h
    simp only [ofSegments?, segments, CompareOp.token?, Option.toList_none, splitOp_token ho,
      Option.map_eq_some_iff] at h
    obtain ⟨_, -, hpath⟩ := h
    obtain rfl : other = .eq := congrArg Path.op hpath
    cases ho
  · rintro ⟨rfl, hnamed⟩
    cases ht : op.token? with
    | none =>
      obtain rfl := token?_eq_none_iff.mp ht
      simp [ofSegments?, segments, CompareOp.token?, splitOp_name (hnamed rfl)]
    | some token =>
      have hsegments : segments ⟨hops, field, op⟩ = (hops ++ [field]) ++ [token] := by
        simp [segments, ht]
      rw [ofSegments?, hsegments, splitOp_token ht]
      simp

/-- Segments that name no attribute are a token alone. -/
theorem ofSegments?_eq_none_iff (hne : parts ≠ []) :
    ofSegments? parts = none ↔ ∃ op token, CompareOp.token? op = some token ∧ parts = [token] := by
  obtain ⟨names, last, rfl⟩ : ∃ names last, parts = names ++ [last] :=
    ⟨parts.dropLast, parts.getLast hne, (List.dropLast_concat_getLast hne).symm⟩
  by_cases hlast : ∃ op : CompareOp, op.token? = some last
  · obtain ⟨op, ho⟩ := hlast
    simp only [ofSegments?, splitOp_token ho, Option.map_eq_none_iff, List.getLast?_eq_none_iff]
    constructor
    · rintro rfl
      exact ⟨op, last, ho, rfl⟩
    · rintro ⟨_, token, -, h⟩
      exact (List.append_eq_singleton_iff.mp h).elim And.left fun h => by cases h.2
  · have hname : ∀ op : CompareOp, op.token? ≠ some last := not_exists.mp hlast
    simp only [ofSegments?, splitOp_name hname, Option.map_eq_none_iff,
      List.getLast?_eq_none_iff, List.append_ne_nil_of_right_ne_nil _ (List.cons_ne_nil _ _),
      false_iff]
    rintro ⟨op, token, ho, h⟩
    obtain rfl : last = token := by simpa using congrArg List.getLast? h
    exact hname op ho

/-! ### Parsing -/

theorem segments_ne_nil (text : String) : PathQuery.segments text ≠ [] := by
  simp [PathQuery.segments]

theorem segments_empty : PathQuery.segments "" = [""] := by decide

theorem parse_of_ne_empty (h : text ≠ "") : parse text =
    if "" ∈ PathQuery.segments text then .error (.emptySegment text)
    else match ofSegments? (PathQuery.segments text) with
      | some path => .ok path
      | none => .error (.missingAttribute text) :=
  if_neg h

theorem parse_eq_ok_iff : parse text = .ok path ↔ path.Canonical ∧ path.render = text := by
  constructor
  · intro h
    have hrender := render_of_parse h
    have htext : text ≠ "" := by
      rintro rfl
      cases h
    rw [parse_of_ne_empty htext] at h
    split at h
    · cases h
    · next hfilled =>
      split at h
      · next hpath =>
        cases h
        obtain ⟨hparts, hnamed⟩ := ofSegments?_eq_some_iff.mp hpath
        rw [← hparts] at hfilled
        have hcut : PathQuery.segments path.render = path.segments := by rw [hrender, hparts]
        obtain ⟨hunmarked, hspaced⟩ := segments_render_iff.mp hcut
        exact ⟨⟨hfilled, hunmarked, hspaced, hnamed⟩, hrender⟩
      · cases h
  · rintro ⟨hpath, rfl⟩
    have hcut := segments_render_iff.mpr ⟨hpath.unmarked, hpath.spaced⟩
    have hne : path.render ≠ "" := by
      intro h
      rw [h, segments_empty] at hcut
      exact hpath.filled (hcut ▸ List.mem_singleton_self "")
    rw [parse_of_ne_empty hne, hcut, if_neg hpath.filled,
      ofSegments?_eq_some_iff.mpr ⟨rfl, hpath.named⟩]

/-- A token alone is a text with one segment. -/
theorem filled_of_token {op : CompareOp} (h : op.token? = some text) :
    text ≠ "" ∧ "" ∉ PathQuery.segments text := by
  have hne : text ≠ "" := by cases op <;> cases h <;> decide
  rw [(segments_eq_singleton_iff h).mpr rfl]
  exact ⟨hne, fun hm => hne (List.mem_singleton.mp hm).symm⟩

theorem parse_eq_error_iff {e : CriteriaError} : parse text = .error e ↔
    e = .emptyPath ∧ text = "" ∨
    e = .emptySegment text ∧ text ≠ "" ∧ "" ∈ PathQuery.segments text ∨
    e = .missingAttribute text ∧ ∃ op : CompareOp, op.token? = some text := by
  by_cases hempty : text = ""
  · have htoken : ¬ ∃ op : CompareOp, op.token? = some text :=
      fun ⟨_, ho⟩ => (filled_of_token ho).1 hempty
    rw [parse, if_pos hempty, Except.error.injEq, eq_comm]
    simp only [htoken, and_false, or_false]
    simp only [hempty, ne_eq, not_true_eq_false, false_and, and_false, and_true, or_false]
  · rw [parse_of_ne_empty hempty]
    by_cases hfilled : "" ∈ PathQuery.segments text
    · have htoken : ¬ ∃ op : CompareOp, op.token? = some text :=
        fun ⟨_, ho⟩ => (filled_of_token ho).2 hfilled
      rw [if_pos hfilled, Except.error.injEq, eq_comm]
      simp only [hempty, hfilled, htoken, ne_eq, not_false_eq_true, and_true, and_false, or_false,
        false_or]
    · have hnone := ofSegments?_eq_none_iff (segments_ne_nil text)
      rw [if_neg hfilled]
      simp only [hempty, hfilled, and_false, false_or]
      cases hpath : ofSegments? (PathQuery.segments text) with
      | none =>
        obtain ⟨op, token, ho, hparts⟩ := hnone.mp hpath
        obtain rfl := (segments_eq_singleton_iff ho).mp hparts
        rw [Except.error.injEq, eq_comm]
        exact (and_iff_left ⟨op, ho⟩).symm
      | some path =>
        refine iff_of_false (fun h => by cases h) ?_
        rintro ⟨-, op, ho⟩
        rw [hnone.mpr ⟨op, text, ho, (segments_eq_singleton_iff ho).mpr rfl⟩] at hpath
        cases hpath

/-- A path is read where no error is found. -/
theorem exists_parse_iff : (∃ path, parse text = .ok path) ↔
    text ≠ "" ∧ "" ∉ PathQuery.segments text ∧ ∀ op : CompareOp, op.token? ≠ some text := by
  have herror : (∃ path, parse text = .ok path) ↔ ∀ e, parse text ≠ .error e := by
    cases parse text <;> simp
  rw [herror]
  simp only [ne_eq, parse_eq_error_iff]
  constructor
  · intro h
    have hne : text ≠ "" := fun he => h _ (.inl ⟨rfl, he⟩)
    exact ⟨hne, fun hm => h _ (.inr (.inl ⟨rfl, hne, hm⟩)),
      fun op ho => h _ (.inr (.inr ⟨rfl, op, ho⟩))⟩
  · rintro ⟨hne, hfilled, htoken⟩ e (⟨-, he⟩ | ⟨-, -, hm⟩ | ⟨-, op, ho⟩)
    · exact hne he
    · exact hfilled hm
    · exact htoken op ho

/-- Every text splits in one way. Its path is the canonical one that renders to it, if there is
one; otherwise the text is empty, has an empty segment, or is a token alone, and the error says
so. -/
theorem parse_grammar (text : String) :
    (∀ parts, SplitsInto text parts ↔ PathQuery.segments text = parts) ∧
    (∀ e, parse text = .error e ↔
      e = .emptyPath ∧ text = "" ∨
      e = .emptySegment text ∧ text ≠ "" ∧ (∃ parts, SplitsInto text parts ∧ "" ∈ parts) ∨
      e = .missingAttribute text ∧ ∃ op : CompareOp, op.token? = some text) ∧
    ((∃ path, parse text = .ok path) ↔
      text ≠ "" ∧ (∀ parts, SplitsInto text parts → "" ∉ parts) ∧
        ∀ op : CompareOp, op.token? ≠ some text) ∧
    (∀ path, parse text = .ok path ↔ path.Canonical ∧ path.render = text) ∧
    ∀ other path, parse text = .ok path → parse other = .ok path → text = other := by
  simp only [splitsInto_iff, exists_eq_left', forall_eq']
  exact ⟨fun _ => trivial, fun _ => parse_eq_error_iff, exists_parse_iff, fun _ => parse_eq_ok_iff,
    fun other path ht ho => (render_of_parse ht).symm.trans (render_of_parse ho)⟩

/-- Of three underscores the last belongs to the next segment. -/
example : (parse "a___b__lt").toOption = some ⟨["a"], "_b", .lt⟩ := by decide +kernel

end Path

end PathQuery
