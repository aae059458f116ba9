import PathQuery.Text.LowerCase

/-! Wildcard patterns over characters: a percent sign stands for any run of characters,
an underscore for one, anything else for itself. `Fits` is the meaning of a match. A scan
decides it with one place in the text and one in the pattern. It goes forward in both while
characters match; at a mismatch it starts again behind the last percent sign, with a run one
character longer. From the start on a scan reads inside both lists, and each turn leaves
less to try, so it comes to an answer. -/

namespace PathQuery

namespace Pattern

/-- The text can be cut into consecutive pieces, one for each character of the pattern. -/
inductive Fits : List Char → List Char → Prop
  | nil : Fits [] []
  | run {pattern text : List Char} (piece : List Char) (h : Fits pattern text) :
    Fits ('%' :: pattern) (piece ++ text)
  | one {pattern text : List Char} (c : Char) (h : Fits pattern text) :
    Fits ('_' :: pattern) (c :: text)
  | same {pattern text : List Char} (c : Char) (hr : c ≠ '%') (ho : c ≠ '_')
    (h : Fits pattern text) : Fits (c :: pattern) (c :: text)

/-- A percent sign by its place in the pattern, with the place in the text where its run
stops. -/
structure Run where
  sign : Nat
  stop : Nat

/-- Where a scan stands: the next places in text and pattern, and the run of the last percent
sign passed. -/
structure Scan where
  text : Nat
  pattern : Nat
  run? : Option Run

/-- What a turn of a scan comes to; the last is a read past an end. -/
inductive Turn
  | next (scan : Scan)
  | answer (fits : Bool)
  | outside

namespace Scan

def start : Scan := ⟨0, 0, none⟩

/-- Passes one character of both. -/
def forward (s : Scan) : Scan := { s with text := s.text + 1, pattern := s.pattern + 1 }

/-- Passes a percent sign, with an empty run. -/
def enter (s : Scan) : Scan := ⟨s.text, s.pattern + 1, some ⟨s.pattern, s.text⟩⟩

/-- Starts again behind a percent sign, with a run one character longer. -/
def behind (run : Run) : Scan :=
  ⟨run.stop + 1, run.sign + 1, some { run with stop := run.stop + 1 }⟩

/-- After a mismatch only a longer run can help. -/
def back (s : Scan) : Turn :=
  match s.run? with
  | some run => .next (behind run)
  | none => .answer false

def turn (pattern text : List Char) (s : Scan) : Turn :=
  if s.text < text.length then
    match pattern[s.pattern]? with
    | some '%' => .next s.enter
    | some '_' => .next s.forward
    | some c =>
      match text[s.text]? with
      | some x => if c = x then .next s.forward else s.back
      | none => .outside
    | none => s.back
  else if s.pattern ≤ pattern.length then .answer ((pattern.drop s.pattern).all (· == '%'))
  else .outside

/-- The places are in range, and the run of the last percent sign lies before them. -/
structure Sound (pattern text : List Char) (s : Scan) : Prop where
  text_le : s.text ≤ text.length
  pattern_le : s.pattern ≤ pattern.length
  run : ∀ run ∈ s.run?, run.sign < s.pattern ∧ run.stop ≤ s.text

/-- The pattern does not go on with what matches a character. -/
def Differs (pattern : List Char) (s : Scan) (x : Char) : Prop :=
  ∀ c, pattern[s.pattern]? = some c → c ≠ '%' ∧ c ≠ '_' ∧ c ≠ x

/-- The turns of a sound scan. -/
inductive Takes (pattern text : List Char) (s : Scan) : Turn → Prop
  | enter (ht : s.text < text.length) (hp : pattern[s.pattern]? = some '%') :
    Takes pattern text s (.next s.enter)
  | forward {c x : Char} (ht : text[s.text]? = some x) (hp : pattern[s.pattern]? = some c)
    (hr : c ≠ '%') (hm : c = '_' ∨ c = x) : Takes pattern text s (.next s.forward)
  | again {x : Char} {run : Run} (ht : text[s.text]? = some x) (hd : s.Differs pattern x)
    (hrun : s.run? = some run) : Takes pattern text s (.next (behind run))
  | refuse {x : Char} (ht : text[s.text]? = some x) (hd : s.Differs pattern x)
    (hrun : s.run? = none) : Takes pattern text s (.answer false)
  | finish (ht : s.text = text.length) :
    Takes pattern text s (.answer ((pattern.drop s.pattern).all (· == '%')))

variable {pattern text : List Char} {s t : Scan}

theorem sound_start (pattern text : List Char) : start.Sound pattern text :=
  ⟨Nat.zero_le _, Nat.zero_le _, fun _ h => by cases h⟩

theorem takes_back {x : Char} (ht : text[s.text]? = some x) (hd : s.Differs pattern x) :
    s.Takes pattern text s.back := by
  rw [back]
  split
  · next run hrun => exact .again ht hd hrun
  · next hrun => exact .refuse ht hd hrun

theorem Sound.takes (hs : s.Sound pattern text) : s.Takes pattern text (s.turn pattern text) := by
  unfold turn
  split
  · next hlt =>
    have hx := List.getElem?_eq_getElem hlt
    split
    · next hp => exact .enter hlt hp
    · next hp => exact .forward hx hp (by decide) (.inl rfl)
    · next c hrun hone hp =>
      rw [hx]
      simp only
      split
      · next hsame => exact .forward hx hp (by simpa using hrun) (.inr hsame)
      · next hdiff => exact takes_back hx (by simp_all [Differs])
    · next hp => exact takes_back hx (by simp [Differs, hp])
  · next hge =>
    rw [if_pos hs.pattern_le]
    exact .finish (Nat.le_antisymm hs.text_le (Nat.le_of_not_lt hge))

theorem Sound.turn_ne_outside (hs : s.Sound pattern text) : s.turn pattern text ≠ .outside := by
  intro h
  have ht := hs.takes
  rw [h] at ht
  cases ht

/-- A turn keeps a scan sound. -/
theorem Sound.next (hs : s.Sound pattern text) (h : s.turn pattern text = .next t) :
    t.Sound pattern text := by
  have ht := hs.takes
  rw [h] at ht
  cases ht with
  | enter hlt hp =>
    have hp := (List.getElem?_eq_some_iff.mp hp).1
    refine ⟨hs.text_le, hp, ?_⟩
    rintro _ ⟨⟩
    exact ⟨Nat.lt_succ_self _, Nat.le_refl _⟩
  | forward hx hp hr hm =>
    have hx := (List.getElem?_eq_some_iff.mp hx).1
    have hp := (List.getElem?_eq_some_iff.mp hp).1
    refine ⟨hx, hp, fun run hrun => ?_⟩
    obtain ⟨hsign, hstop⟩ := hs.run run hrun
    exact ⟨Nat.lt_succ_of_lt hsign, Nat.le_succ_of_le hstop⟩
  | @again x run hx hd hrun =>
    have hx := (List.getElem?_eq_some_iff.mp hx).1
    obtain ⟨hsign, hstop⟩ := hs.run run hrun
    refine ⟨Nat.lt_of_le_of_lt hstop hx, Nat.le_trans hsign hs.pattern_le, ?_⟩
    rintro _ ⟨⟩
    exact ⟨Nat.lt_succ_self _, Nat.le_refl _⟩

/-- What is left to try: first how far the run of the last percent sign may still grow, then
how far the scan may go until it does. -/
def left (pattern text : List Char) (s : Scan) : Nat :=
  (text.length - s.run?.elim 0 Run.stop) * (text.length + pattern.length + 1) +
    ((text.length - s.text) + (pattern.length - s.pattern))

theorem Sound.left_lt (hs : s.Sound pattern text) (h : s.turn pattern text = .next t) :
    t.left pattern text < s.left pattern text := by
  have ht := hs.takes
  rw [h] at ht
  unfold left
  cases ht with
  | enter hlt hp =>
    have hp := (List.getElem?_eq_some_iff.mp hp).1
    have hstop : s.run?.elim 0 Run.stop ≤ s.text := by
      cases hrun : s.run? with
      | none => exact Nat.zero_le _
      | some run => exact (hs.run run hrun).2
    have hle := Nat.mul_le_mul_right (text.length + pattern.length + 1)
      (Nat.sub_le_sub_left hstop text.length)
    simp only [enter, Option.elim_some]
    omega
  | forward hx hp hr hm =>
    have hx := (List.getElem?_eq_some_iff.mp hx).1
    simp only [forward]
    omega
  | @again x run hx hd hrun =>
    have hx := (List.getElem?_eq_some_iff.mp hx).1
    have hstop := (hs.run run hrun).2
    have hgrow : text.length - run.stop = text.length - (run.stop + 1) + 1 := by omega
    simp only [behind, hrun, Option.elim_some, hgrow, Nat.succ_mul]
    omega

/-- Takes turns up to the answer. -/
def run (pattern text : List Char) (s : Scan) (hs : s.Sound pattern text) : Bool :=
  match h : s.turn pattern text with
  | .next t => run pattern text t (hs.next h)
  | .answer fits => fits
  | .outside => absurd h hs.turn_ne_outside
termination_by s.left pattern text
decreasing_by exact hs.left_lt h

end Scan

def accepts (pattern text : List Char) : Bool :=
  Scan.start.run pattern text (Scan.sound_start pattern text)

end Pattern

/-- Whether a capital matches its small letter. -/
inductive TextMode
  | caseSensitive
  | caseInsensitive
  deriving DecidableEq, Repr

/-- The characters that a text is compared by. -/
def TextMode.fold : TextMode → String → List Char
  | .caseSensitive, text => text.toList
  | .caseInsensitive, text => lowerCaseAll text.toList

/-- The text matches the pattern, both folded alike. -/
def like (text pattern : String) (mode : TextMode) : Bool :=
  Pattern.accepts (mode.fold pattern) (mode.fold text)

end PathQuery
