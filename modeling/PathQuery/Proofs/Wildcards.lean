import Mathlib.Data.List.Infix
import PathQuery.Text.Pattern

/-! Scans against matches. A scan remembers the last percent sign only. That is enough, since
what a longer run of an earlier one could still reach, the last one reaches with a longer run
of its own: the pieces between percent signs have fixed lengths. So after each turn the whole
text matches just when the rest matches from here on, or from behind a longer run, and the
answer of the scan is that of the declarative match. -/

namespace PathQuery

namespace Pattern

variable {pattern text piece rest : List Char} {c x : Char}

/-! ### Matches by the first character -/

theorem fits_nil_iff : Fits [] text ↔ text = [] := by
  constructor
  · rintro ⟨⟩
    rfl
  · rintro rfl
    exact .nil

theorem fits_run_iff : Fits ('%' :: pattern) text ↔ ∃ rest, rest <:+ text ∧ Fits pattern rest := by
  constructor
  · intro h
    cases h with
    | run piece h => exact ⟨_, List.suffix_append _ _, h⟩
    | same _ hr _ _ => exact absurd rfl hr
  · rintro ⟨rest, ⟨piece, rfl⟩, h⟩
    exact .run piece h

theorem fits_cons_iff (hr : c ≠ '%') : Fits (c :: pattern) text ↔
    ∃ x rest, text = x :: rest ∧ (c = '_' ∨ c = x) ∧ Fits pattern rest := by
  constructor
  · intro h
    cases h with
    | run piece h => exact absurd rfl hr
    | one x h => exact ⟨x, _, rfl, .inl rfl, h⟩
    | same _ _ _ h => exact ⟨c, _, rfl, .inr rfl, h⟩
  · rintro ⟨x, rest, rfl, hm, h⟩
    by_cases ho : c = '_'
    · subst ho
      exact .one x h
    · obtain rfl := hm.resolve_left ho
      exact .same c hr ho h

/-- At the end of the text only percent signs may be left. -/
theorem fits_empty_iff : Fits pattern [] ↔ pattern.all (· == '%') = true := by
  induction pattern with
  | nil => simp [fits_nil_iff]
  | cons c pattern ih =>
    by_cases hr : c = '%'
    · subst hr
      simp [fits_run_iff, ih]
    · simp [fits_cons_iff hr, hr]

/-- Without percent signs a pattern takes as many characters as it has. -/
theorem exists_fits_of_append (hp : '%' ∉ piece) (h : Fits (piece ++ pattern) text) :
    ∃ rest, rest <:+ text ∧ text.length = piece.length + rest.length ∧ Fits pattern rest := by
  induction piece generalizing text with
  | nil => exact ⟨text, List.suffix_rfl, by simp, h⟩
  | cons c piece ih =>
    obtain ⟨hc, hp⟩ := List.ne_and_not_mem_of_not_mem_cons hp
    obtain ⟨x, below, rfl, -, h⟩ := (fits_cons_iff (Ne.symm hc)).mp h
    obtain ⟨rest, hrest, hlen, h⟩ := ih hp h
    refine ⟨rest, hrest.trans (List.suffix_cons x below), ?_, h⟩
    simp only [List.length_cons, hlen]
    omega

theorem drop_of_getElem? {n : ℕ} (h : text[n]? = some x) :
    text.drop n = x :: text.drop (n + 1) := by
  obtain ⟨hn, rfl⟩ := List.getElem?_eq_some_iff.mp h
  exact List.drop_eq_getElem_cons hn

/-- A rest is all that comes from a place on, or a rest of what comes behind it. -/
theorem suffix_drop_iff (n : ℕ) :
    rest <:+ text.drop n ↔ rest = text.drop n ∨ rest <:+ text.drop (n + 1) := by
  by_cases hn : n < text.length
  · rw [List.drop_eq_getElem_cons hn, List.suffix_cons_iff]
  · rw [List.drop_eq_nil_of_le (by omega), List.drop_eq_nil_of_le (by omega)]
    simp

/-- A run is empty or takes the next character. -/
theorem fits_run_drop_iff (n : ℕ) : Fits ('%' :: pattern) (text.drop n) ↔
    Fits pattern (text.drop n) ∨ Fits ('%' :: pattern) (text.drop (n + 1)) := by
  simp only [fits_run_iff, suffix_drop_iff n, or_and_right, exists_or, exists_eq_left]

/-! ### What a scan keeps -/

namespace Scan

variable {s t : Scan}

/-- Since the last percent sign as much was passed of the text as of the pattern, and in the
pattern no other one; and the whole text matches where the rest does, or the rest behind a
longer run. -/
structure Keeps (pattern text : List Char) (s : Scan) : Prop where
  passed : ∀ run ∈ s.run?, ∃ piece, '%' ∉ piece ∧
    pattern.drop (run.sign + 1) = piece ++ pattern.drop s.pattern ∧
      run.stop + piece.length = s.text
  fits_iff : Fits pattern text ↔ Fits (pattern.drop s.pattern) (text.drop s.text) ∨
    ∃ run ∈ s.run?, Fits ('%' :: pattern.drop (run.sign + 1)) (text.drop (run.stop + 1))

theorem keeps_start (pattern text : List Char) : start.Keeps pattern text :=
  ⟨fun _ h => (by cases h), by simp [start]⟩

/-- What comes of a longer run comes as well of a run from here. -/
theorem Keeps.absorbs (hk : s.Keeps pattern text) {run : Run} (hrun : run ∈ s.run?)
    (h : Fits ('%' :: pattern.drop (run.sign + 1)) (text.drop (run.stop + 1))) :
    ∃ rest, rest <:+ text.drop s.text ∧ Fits (pattern.drop s.pattern) rest := by
  obtain ⟨piece, hp, hdrop, hplace⟩ := hk.passed run hrun
  rw [hdrop] at h
  obtain ⟨below, hbelow, h⟩ := fits_run_iff.mp h
  obtain ⟨rest, hrest, hlen, h⟩ := exists_fits_of_append hp h
  have htext : rest <:+ text := hrest.trans (hbelow.trans (List.drop_suffix _ _))
  have hlength : rest.length ≤ (text.drop s.text).length := by
    have hle := hbelow.length_le
    rw [List.length_drop] at hle ⊢
    omega
  exact ⟨rest, List.suffix_of_suffix_length_le htext (List.drop_suffix _ _) hlength, h⟩

/-- What does not go on with a match for the next character does not match from here. -/
theorem Differs.not_fits (hd : s.Differs pattern x) :
    ¬ Fits (pattern.drop s.pattern) (x :: rest) := by
  cases hc : pattern[s.pattern]? with
  | none =>
    rw [List.drop_eq_nil_of_le (List.getElem?_eq_none_iff.mp hc), fits_nil_iff]
    exact List.cons_ne_nil _ _
  | some c =>
    obtain ⟨hr, ho, hx⟩ := hd c hc
    rw [drop_of_getElem? hc, fits_cons_iff hr]
    rintro ⟨y, more, heq, hm, -⟩
    obtain ⟨rfl, -⟩ := List.cons.inj heq
    exact hm.elim ho hx

theorem Keeps.next (hk : s.Keeps pattern text) (hs : s.Sound pattern text)
    (h : s.turn pattern text = .next t) : t.Keeps pattern text := by
  have ht := hs.takes
  rw [h] at ht
  cases ht with
  | enter hlt hp =>
    -- a match behind a longer run of the sign before is one from this sign on
    have hsign : Fits pattern text ↔
        Fits ('%' :: pattern.drop (s.pattern + 1)) (text.drop s.text) := by
      rw [hk.fits_iff, drop_of_getElem? hp, or_iff_left_iff_imp]
      rintro ⟨run, hrun, hlonger⟩
      obtain ⟨rest, hrest, hmatch⟩ := hk.absorbs hrun hlonger
      rw [drop_of_getElem? hp, fits_run_iff] at hmatch
      obtain ⟨more, hmore, hmatch⟩ := hmatch
      exact fits_run_iff.mpr ⟨more, hmore.trans hrest, hmatch⟩
    constructor
    · rintro _ ⟨⟩
      exact ⟨[], List.not_mem_nil, rfl, rfl⟩
    · rw [hsign, fits_run_drop_iff]
      simp [Scan.enter]
  | @forward c x hx hp hr hm =>
    constructor
    · intro run hrun
      obtain ⟨piece, hpiece, hdrop, hplace⟩ := hk.passed run hrun
      refine ⟨piece ++ [c], ?_, ?_, ?_⟩
      · simpa [hpiece] using Ne.symm hr
      · rw [hdrop, drop_of_getElem? hp, List.append_assoc]
        rfl
      · rw [List.length_append, ← Nat.add_assoc, hplace]
        rfl
    · rw [hk.fits_iff, drop_of_getElem? hp, drop_of_getElem? hx, fits_cons_iff hr]
      simp [Scan.forward, hm]
  | @again x run hx hd hrun =>
    constructor
    · rintro _ ⟨⟩
      exact ⟨[], List.not_mem_nil, rfl, rfl⟩
    · rw [hk.fits_iff, drop_of_getElem? hx, hrun, or_iff_right hd.not_fits]
      simp [behind, fits_run_drop_iff (run.stop + 1)]

theorem Keeps.answer {fits : Bool} (hk : s.Keeps pattern text) (hs : s.Sound pattern text)
    (h : s.turn pattern text = .answer fits) : fits = true ↔ Fits pattern text := by
  have ht := hs.takes
  rw [h] at ht
  cases ht with
  | @refuse x hx hd hrun =>
    rw [hk.fits_iff, drop_of_getElem? hx, hrun, or_iff_right hd.not_fits]
    simp
  | finish hend =>
    rw [hk.fits_iff, ← fits_empty_iff, hend, List.drop_length, iff_self_or]
    rintro ⟨run, hrun, hlonger⟩
    obtain ⟨rest, hrest, hmatch⟩ := hk.absorbs hrun hlonger
    rw [hend, List.drop_length, List.suffix_nil] at hrest
    rwa [hrest] at hmatch

/-- A run of a scan answers whether the whole text matches. -/
theorem run_iff (hk : s.Keeps pattern text) (hs : s.Sound pattern text) :
    s.run pattern text hs = true ↔ Fits pattern text := by
  fun_induction run pattern text s hs with
  | case1 s hs t h ih => exact ih (hk.next hs h)
  | case2 s hs fits h => exact hk.answer hs h

/-! ### Runs turn by turn -/

/-- The turns from a scan come to an answer. -/
inductive Ends (pattern text : List Char) : Scan → Bool → Prop
  | answer {s : Scan} {fits : Bool} (h : s.turn pattern text = .answer fits) :
    Ends pattern text s fits
  | next {s t : Scan} {fits : Bool} (h : s.turn pattern text = .next t)
    (he : Ends pattern text t fits) : Ends pattern text s fits

theorem ends_run (hs : s.Sound pattern text) : Ends pattern text s (s.run pattern text hs) := by
  fun_induction run pattern text s hs with
  | case1 s hs t h ih => exact .next h ih
  | case2 s hs fits h => exact .answer h

/-- The scans that turns lead to. -/
inductive Visits (pattern text : List Char) (s : Scan) : Scan → Prop
  | self : Visits pattern text s s
  | next {t u : Scan} (hv : Visits pattern text s t) (h : t.turn pattern text = .next u) :
    Visits pattern text s u

theorem Visits.sound (hv : Visits pattern text s t) (hs : s.Sound pattern text) :
    t.Sound pattern text := by
  induction hv with
  | self => exact hs
  | next _ h ih => exact ih.next h

end Scan

/-! ### Pieces -/

/-- What a character of a pattern stands for in a text. -/
def Stands (c : Char) (piece : List Char) : Prop :=
  if c = '%' then True else if c = '_' then piece.length = 1 else piece = [c]

/-- A match is a cut of the text into pieces that the characters of the pattern stand for. -/
theorem fits_iff_pieces : Fits pattern text ↔
    ∃ pieces, List.Forall₂ Stands pattern pieces ∧ pieces.flatten = text := by
  constructor
  · intro h
    induction h with
    | nil => exact ⟨[], .nil, rfl⟩
    | run piece h ih =>
      obtain ⟨pieces, hp, rfl⟩ := ih
      exact ⟨piece :: pieces, .cons trivial hp, rfl⟩
    | one c h ih =>
      obtain ⟨pieces, hp, rfl⟩ := ih
      exact ⟨[c] :: pieces, .cons rfl hp, rfl⟩
    | same c hr ho h ih =>
      obtain ⟨pieces, hp, rfl⟩ := ih
      exact ⟨[c] :: pieces, .cons (by rw [Stands, if_neg hr, if_neg ho]) hp, rfl⟩
  · rintro ⟨pieces, hp, rfl⟩
    induction hp with
    | nil => exact .nil
    | @cons c piece pattern pieces hc hp ih =>
      unfold Stands at hc
      split at hc
      · next hr => exact hr ▸ .run piece ih
      · next hr =>
        split at hc
        · next ho =>
          obtain ⟨x, rfl⟩ := List.length_eq_one_iff.mp hc
          exact ho ▸ .one x ih
        · next ho => exact hc ▸ .same c hr ho ih

theorem accepts_iff : accepts pattern text = true ↔ Fits pattern text :=
  Scan.run_iff (Scan.keeps_start pattern text) (Scan.sound_start pattern text)

end Pattern

/-- A text is matched by turns that read inside text and pattern and come to an answer, and the
answer is whether the text can be cut into pieces, one for each character of the pattern. -/
theorem like_cuts (text pattern : String) (mode : TextMode) :
    (∀ s, Pattern.Scan.Visits (mode.fold pattern) (mode.fold text) .start s →
        s.turn (mode.fold pattern) (mode.fold text) ≠ .outside) ∧
      Pattern.Scan.Ends (mode.fold pattern) (mode.fold text) .start (like text pattern mode) ∧
      (like text pattern mode = true ↔ ∃ pieces,
        List.Forall₂ Pattern.Stands (mode.fold pattern) pieces ∧
          pieces.flatten = mode.fold text) := by
  have hs := Pattern.Scan.sound_start (mode.fold pattern) (mode.fold text)
  refine ⟨fun s hv => (hv.sound hs).turn_ne_outside, Pattern.Scan.ends_run hs, ?_⟩
  rw [like, Pattern.accepts_iff, Pattern.fits_iff_pieces]

/-- The run of the percent sign has to grow over the first two characters again. -/
example : like "abcABd" "%ab_" .caseInsensitive = true ∧
    like "abcABd" "%ab_" .caseSensitive = false := by
  decide +kernel

end PathQuery
