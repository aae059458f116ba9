import Mathlib.Data.List.Forall2
import PathQuery.Expr.Text
import PathQuery.Proofs.Bridging
import PathQuery.Specimen.Entities

/-! What the text of an expression tells. Three formats are nested in it: quoted texts in lists,
lists in comparisons, comparisons in groups. Each is read off the front of whatever may stand
behind it, which is nothing, a closing parenthesis, a blank or a comma. So two expressions with
one text have one shape, and their comparisons the same column as it is written, the same
spelling and the same value. Operands are null, truth values, signed integers, texts and lists,
since a number is written without its variant, and a group has at least two members, since one
of a single member shows no separator. -/

namespace PathQuery

/-- What may stand behind a value or an expression. -/
def Closes (rest : List Char) : Prop := ∀ c ∈ rest.head?, c = ')' ∨ c = ' ' ∨ c = ','

/-- The texts of two items are told apart in front of what may stand behind them: items with the
same text are related, and what stands behind is the same. -/
def ToldApart {α : Type} (print : α → List Char) (R : α → α → Prop) (a b : α) : Prop :=
  ∀ rest more, Closes rest → Closes more → print a ++ rest = print b ++ more → R a b ∧ rest = more

/-- The piece stands somewhere in the text, in front of what may stand behind it. -/
def StandsIn (piece text : List Char) : Prop :=
  ∃ before rest, Closes rest ∧ text = before ++ (piece ++ rest)

/-! ### Pieces of text -/

section

variable {α : Type} {p : Char → Prop} {as bs rest more : List Char} {c : Char}

theorem closes_nil : Closes [] := by simp [Closes]

theorem closes_cons (hc : c = ')' ∨ c = ' ' ∨ c = ',') (rest : List Char) :
    Closes (c :: rest) := by
  simpa [Closes] using hc

theorem Closes.append (h : Closes rest) (hm : Closes more) : Closes (rest ++ more) := by
  cases rest with
  | nil => exact hm
  | cons c rest => exact closes_cons (h c rfl) _

theorem StandsIn.refl (piece : List Char) : StandsIn piece piece :=
  ⟨[], [], closes_nil, by simp⟩

theorem StandsIn.trans {cs : List Char} (h : StandsIn as bs) (h' : StandsIn bs cs) :
    StandsIn as cs := by
  obtain ⟨before, rest, hr, rfl⟩ := h
  obtain ⟨first, last, hl, rfl⟩ := h'
  exact ⟨first ++ before, rest ++ last, hr.append hl, by simp⟩

theorem StandsIn.behind (h : StandsIn as bs) (first : List Char) : StandsIn as (first ++ bs) := by
  obtain ⟨before, rest, hr, rfl⟩ := h
  exact ⟨first ++ before, rest, hr, by simp⟩

/-- Characters of one kind are told apart from what stands behind them. -/
theorem append_inj_of_run (ha : ∀ c ∈ as, p c) (hb : ∀ c ∈ bs, p c)
    (hr : ∀ c ∈ rest.head?, ¬ p c) (hm : ∀ c ∈ more.head?, ¬ p c)
    (h : as ++ rest = bs ++ more) : as = bs ∧ rest = more := by
  induction as generalizing bs with
  | nil =>
    cases bs with
    | nil => exact ⟨rfl, h⟩
    | cons b bs =>
      rw [List.nil_append] at h
      exact absurd (hb b List.mem_cons_self) (hr b (by simp [h]))
  | cons a as ih =>
    cases bs with
    | nil =>
      rw [List.nil_append] at h
      exact absurd (ha a List.mem_cons_self) (hm a (by simp [← h]))
    | cons b bs =>
      obtain ⟨hab, htail⟩ := List.cons.inj h
      obtain ⟨hrun, hrest⟩ := ih (fun c hc => ha c (List.mem_cons_of_mem _ hc))
        (fun c hc => hb c (List.mem_cons_of_mem _ hc)) htail
      exact ⟨by rw [hab, hrun], hrest⟩

/-- Items that each stand behind a separator, up to a closing parenthesis. -/
def following (print : α → List Char) (separator : List Char) (items : List α)
    (rest : List Char) : List Char :=
  items.flatMap (fun item => separator ++ print item) ++ ')' :: rest

variable {print : α → List Char} {R : α → α → Prop} {x y : α} {xs ys : List α}
  {separator : List Char}

theorem following_cons (x : α) (xs : List α) (rest : List Char) :
    following print separator (x :: xs) rest
      = separator ++ (print x ++ following print separator xs rest) := by
  simp [following]

theorem closes_following (hc : c = ' ' ∨ c = ',') (xs : List α) (rest : List Char) :
    Closes (following print (c :: separator) xs rest) := by
  cases xs with
  | nil => exact closes_cons (.inl rfl) rest
  | cons x xs =>
    rw [following_cons]
    exact closes_cons (.inr hc) _

theorem standsIn_following (hc : c = ' ' ∨ c = ',') (hx : x ∈ y :: ys) :
    StandsIn (print x) (print y ++ following print (c :: separator) ys rest) := by
  induction ys generalizing y with
  | nil =>
    obtain rfl := List.mem_singleton.mp hx
    exact ⟨[], _, closes_following hc [] rest, rfl⟩
  | cons z ys ih =>
    rcases List.mem_cons.mp hx with rfl | hx
    · exact ⟨[], _, closes_following hc (z :: ys) rest, rfl⟩
    · rw [following_cons]
      exact ((ih hx).behind (c :: separator)).behind (print y)

theorem following_inj (hc : c = ' ' ∨ c = ',')
    (hp : ∀ x ∈ xs, ∀ y ∈ ys, ToldApart print R x y)
    (h : following print (c :: separator) xs rest = following print (c :: separator) ys more) :
    List.Forall₂ R xs ys ∧ rest = more := by
  have hne : c ≠ ')' := by rcases hc with rfl | rfl <;> decide
  induction xs generalizing ys with
  | nil =>
    cases ys with
    | nil => exact ⟨.nil, (List.cons.inj h).2⟩
    | cons y ys => exact absurd (List.cons.inj h).1.symm hne
  | cons x xs ih =>
    cases ys with
    | nil => exact absurd (List.cons.inj h).1 hne
    | cons y ys =>
      rw [following_cons, following_cons] at h
      obtain ⟨hxy, hnext⟩ := hp x List.mem_cons_self y List.mem_cons_self _ _
        (closes_following hc xs rest) (closes_following hc ys more) (List.append_cancel_left h)
      obtain ⟨hrest, heq⟩ := ih (fun x hx y hy =>
        hp x (List.mem_cons_of_mem _ hx) y (List.mem_cons_of_mem _ hy)) hnext
      exact ⟨.cons hxy hrest, heq⟩

/-- A first item and those that follow it. -/
theorem append_following_inj (hc : c = ' ' ∨ c = ',')
    (hp : ∀ a ∈ x :: xs, ∀ b ∈ y :: ys, ToldApart print R a b)
    (h : print x ++ following print (c :: separator) xs rest
      = print y ++ following print (c :: separator) ys more) :
    List.Forall₂ R (x :: xs) (y :: ys) ∧ rest = more := by
  obtain ⟨hxy, hnext⟩ := hp x List.mem_cons_self y List.mem_cons_self _ _
    (closes_following hc xs rest) (closes_following hc ys more) h
  obtain ⟨hrest, heq⟩ := following_inj hc (fun a ha b hb =>
    hp a (List.mem_cons_of_mem _ ha) b (List.mem_cons_of_mem _ hb)) hnext
  exact ⟨.cons hxy hrest, heq⟩

end

/-! ### Integers -/

section

variable {m n : Nat} {rest more : List Char}

theorem isDigit_of_mem_toDigits {c : Char} (h : c ∈ Nat.toDigits 10 n) : c.isDigit = true :=
  Nat.isDigit_of_mem_toDigits (by decide) (by decide) h

theorem Closes.not_isDigit (h : Closes rest) : ∀ c ∈ rest.head?, ¬ c.isDigit = true := by
  intro c hc
  rcases h c hc with rfl | rfl | rfl <;> decide

theorem exists_first_toDigits (n : Nat) :
    ∃ c tail, Nat.toDigits 10 n = c :: tail ∧ c.isDigit = true := by
  cases h : Nat.toDigits 10 n with
  | nil => exact absurd h Nat.toDigits_ne_nil
  | cons c tail => exact ⟨c, tail, rfl, isDigit_of_mem_toDigits (h ▸ List.mem_cons_self)⟩

theorem toDigits_append_inj (hr : Closes rest) (hm : Closes more)
    (h : Nat.toDigits 10 m ++ rest = Nat.toDigits 10 n ++ more) : m = n ∧ rest = more := by
  obtain ⟨hdigits, hrest⟩ := append_inj_of_run (p := fun c => c.isDigit = true)
    (fun _ => isDigit_of_mem_toDigits) (fun _ => isDigit_of_mem_toDigits) hr.not_isDigit
    hm.not_isDigit h
  have hvalue := congrArg (Nat.ofDigitChars 10 · 0) hdigits
  simp only [Nat.ofDigitChars_ten_toDigits] at hvalue
  exact ⟨hvalue, hrest⟩

/-- Digits do not begin with a minus sign. -/
theorem toDigits_append_ne : Nat.toDigits 10 n ++ rest ≠ '-' :: more := by
  obtain ⟨c, tail, hc, hdigit⟩ := exists_first_toDigits n
  rw [hc]
  intro h
  rw [(List.cons.inj h).1] at hdigit
  exact absurd hdigit (by decide)

theorem integerChars_append_inj {m n : Int} (hr : Closes rest) (hm : Closes more)
    (h : integerChars m ++ rest = integerChars n ++ more) : m = n ∧ rest = more := by
  unfold integerChars at h
  split at h <;> split at h
  · obtain ⟨hn, hrest⟩ := toDigits_append_inj hr hm (List.cons.inj h).2
    exact ⟨by omega, hrest⟩
  · exact absurd h.symm toDigits_append_ne
  · exact absurd h toDigits_append_ne
  · obtain ⟨hn, hrest⟩ := toDigits_append_inj hr hm h
    exact ⟨by omega, hrest⟩

end

/-! ### Texts -/

theorem Closes.head?_ne {rest : List Char} (h : Closes rest) : rest.head? ≠ some '\'' := by
  intro hq
  have hc := h _ hq
  revert hc
  decide

theorem Quoted.quote_append_inj {s t : String} {rest more : List Char} (hr : Closes rest)
    (hm : Closes more) (h : quote s ++ rest = quote t ++ more) : s = t ∧ rest = more := by
  have hdecode := congrArg (fun cs => decode cs.tail) h
  simp only [quote, List.cons_append, List.append_assoc, List.tail_cons, List.nil_append,
    decode_encode _ _ hr.head?_ne, decode_encode _ _ hm.head?_ne, Option.some.injEq,
    Prod.mk.injEq, String.toList_inj] at hdecode
  exact hdecode

/-! ### Values -/

namespace Value

/-- Built from null, truth values, signed integers, texts and lists. -/
inductive Legible : Value → Prop
  | null : Legible .null
  | bool (b : Bool) : Legible (.bool b)
  | int (n : Int64) : Legible (.int n)
  | text (s : String) : Legible (.text s)
  | list {items : List Value} (h : ∀ v ∈ items, Legible v) : Legible (.list items)

/-- The kind of value whose literal has this first character. -/
def kindOfFirst (c : Char) : ValueKind :=
  if c = 'N' then .null
  else if c = 'T' ∨ c = 'F' then .bool
  else if c = '\'' then .text
  else if c = '(' then .list
  else .int

variable {v w : Value} {vs ws : List Value} {rest more : List Char}

theorem literalItems_cons (v : Value) (vs : List Value) (rest : List Char) :
    literalItems (v :: vs) ++ ')' :: rest
      = v.literalChars ++ following literalChars [',', ' '] vs rest := by
  induction vs generalizing v with
  | nil => simp [literalItems, following]
  | cons w vs ih => simp [literalItems, following_cons, ih]

theorem kindOfFirst_of_isDigit {c : Char} (h : c.isDigit = true) : kindOfFirst c = .int := by
  have hne : ∀ d : Char, d.isDigit = false → c ≠ d := by
    rintro d hd rfl
    rw [h] at hd
    cases hd
  simp [kindOfFirst, hne 'N' (by decide), hne 'T' (by decide), hne 'F' (by decide),
    hne '\'' (by decide), hne '(' (by decide)]

/-- The first character of a literal tells the kind of the value, and closes no list. -/
theorem Legible.exists_first (hv : v.Legible) :
    ∃ c tail, v.literalChars = c :: tail ∧ c ≠ ')' ∧ kindOfFirst c = v.kind := by
  cases hv with
  | null => exact ⟨'N', _, rfl, by decide, rfl⟩
  | bool b => cases b <;> exact ⟨_, _, rfl, by decide, rfl⟩
  | int n =>
    rw [literalChars, integerChars]
    split
    · exact ⟨'-', _, rfl, by decide, rfl⟩
    · obtain ⟨c, tail, hc, hdigit⟩ := exists_first_toDigits n.toInt.natAbs
      refine ⟨c, tail, hc, ?_, kindOfFirst_of_isDigit hdigit⟩
      rintro rfl
      exact absurd hdigit (by decide)
  | text s => exact ⟨'\'', _, rfl, by decide, rfl⟩
  | list h => exact ⟨'(', _, rfl, by decide, rfl⟩

theorem Legible.kind_eq (hv : v.Legible) (hw : w.Legible)
    (h : v.literalChars ++ rest = w.literalChars ++ more) : v.kind = w.kind := by
  obtain ⟨c, tail, hc, -, hkind⟩ := hv.exists_first
  obtain ⟨d, tail', hd, -, hkind'⟩ := hw.exists_first
  rw [hc, hd] at h
  rw [← hkind, ← hkind', (List.cons.inj h).1]

/-- A list with items is not written as the empty one. -/
theorem Legible.append_ne (hv : v.Legible) : v.literalChars ++ rest ≠ ')' :: more := by
  obtain ⟨c, tail, hc, hne, -⟩ := hv.exists_first
  rw [hc]
  exact fun h => hne (List.cons.inj h).1

theorem literalItems_inj (hv : ∀ v ∈ vs, v.Legible) (hw : ∀ w ∈ ws, w.Legible)
    (ht : ∀ v ∈ vs, ∀ w ∈ ws, ToldApart literalChars (· = ·) v w)
    (h : literalItems vs ++ ')' :: rest = literalItems ws ++ ')' :: more) :
    vs = ws ∧ rest = more := by
  cases vs with
  | nil =>
    cases ws with
    | nil => exact ⟨rfl, (List.cons.inj h).2⟩
    | cons w ws =>
      rw [literalItems_cons] at h
      exact absurd h.symm (hw w List.mem_cons_self).append_ne
  | cons v vs =>
    cases ws with
    | nil =>
      rw [literalItems_cons] at h
      exact absurd h (hv v List.mem_cons_self).append_ne
    | cons w ws =>
      rw [literalItems_cons, literalItems_cons] at h
      have hall := append_following_inj (.inr rfl) ht h
      rwa [List.forall₂_eq_eq_eq] at hall

/-- A literal is told from any other in front of what may stand behind it. -/
theorem Legible.toldApart (hv : v.Legible) (hw : w.Legible) :
    ToldApart literalChars (· = ·) v w := by
  induction hv generalizing w with
  | null =>
    intro rest more hr hm h
    have hkind := Legible.null.kind_eq hw h
    cases hw <;> cases hkind
    exact ⟨rfl, List.append_cancel_left h⟩
  | bool b =>
    intro rest more hr hm h
    have hkind := (Legible.bool b).kind_eq hw h
    cases hw <;> cases hkind
    next b' => cases b <;> cases b' <;> simp_all [literalChars]
  | int n =>
    intro rest more hr hm h
    have hkind := (Legible.int n).kind_eq hw h
    cases hw <;> cases hkind
    next n' =>
      obtain ⟨hn, hrest⟩ := integerChars_append_inj hr hm h
      exact ⟨congrArg Value.int (Int64.toInt_inj.mp hn), hrest⟩
  | text s =>
    intro rest more hr hm h
    have hkind := (Legible.text s).kind_eq hw h
    cases hw <;> cases hkind
    next t =>
      obtain ⟨hs, hrest⟩ := Quoted.quote_append_inj hr hm h
      exact ⟨congrArg Value.text hs, hrest⟩
  | list hitems ih =>
    intro rest more hr hm h
    have hkind := (Legible.list hitems).kind_eq hw h
    cases hw <;> cases hkind
    next hitems' =>
      rw [literalChars, literalChars, List.append_assoc, List.append_assoc] at h
      obtain ⟨hs, hrest⟩ := literalItems_inj hitems hitems'
        (fun v hv w hw => ih v hv (hitems' w hw)) (List.cons.inj h).2
      exact ⟨congrArg Value.list hs, hrest⟩

theorem standsIn_list (hv : v ∈ vs) : StandsIn v.literalChars (list vs).literalChars := by
  obtain ⟨w, ws, rfl⟩ := List.exists_cons_of_ne_nil (List.ne_nil_of_mem hv)
  rw [literalChars, List.cons_append, literalItems_cons]
  exact (standsIn_following (.inr rfl) hv).behind ['(']

/-- A text inside a value stands in its literal between quotes. -/
theorem Legible.standsIn (hv : v.Legible) {s : String} (hs : (Value.text s).Occurs v) :
    StandsIn (Quoted.quote s) v.literalChars := by
  induction hs with
  | self => exact .refl _
  | item hm _ ih =>
    cases hv with
    | list hitems => exact (ih (hitems _ hm)).trans (standsIn_list hm)
  | entry => cases hv

theorem sameItems_self (h : ∀ v ∈ vs, v.same v = true) : sameItems vs vs = true := by
  induction vs with
  | nil => rfl
  | cons v vs ih =>
    rw [sameItems, h v List.mem_cons_self, ih fun w hw => h w (List.mem_cons_of_mem _ hw)]
    rfl

theorem Legible.same_self (hv : v.Legible) : v.same v = true := by
  induction hv with
  | list _ ih =>
    rw [same]
    exact sameItems_self ih
  | _ => simp [same]

end Value

/-! ### Columns -/

/-- A letter, a digit or an underscore. -/
def isWordChar (c : Char) : Bool := c.isAlphanum || c == '_'

namespace Column

/-- The table and the attribute have names of letters, digits and underscores. -/
structure Legible (c : Column) : Prop where
  table : c.entity.table.toList.all isWordChar = true
  field : c.field.toList.all isWordChar = true

variable {c d : Column} {x : Char} {rest more : List Char}

theorem Legible.wordChar_or_point (hc : c.Legible) (hx : x ∈ c.chars) :
    isWordChar x = true ∨ x = '.' := by
  have htable := List.all_eq_true.mp hc.table
  rw [chars, List.mem_append, List.mem_cons] at hx
  rcases hx with hx | rfl | hx
  · left
    rw [slotName] at hx
    split at hx
    · exact htable x hx
    · rw [List.mem_append, List.mem_cons] at hx
      rcases hx with hx | rfl | hx
      · exact htable x hx
      · rfl
      · simp [isWordChar, Char.isAlphanum, isDigit_of_mem_toDigits hx]
  · exact .inr rfl
  · exact .inl (List.all_eq_true.mp hc.field x hx)

theorem Legible.ne_of_mem (hc : c.Legible) (hx : x ∈ c.chars) : x ≠ ' ' ∧ x ≠ '(' := by
  have hword := hc.wordChar_or_point hx
  constructor
  · rintro rfl
    exact absurd hword (by decide)
  · rintro rfl
    exact absurd hword (by decide)

/-- A column ends at the first blank. -/
theorem Legible.append_inj (hc : c.Legible) (hd : d.Legible)
    (h : c.chars ++ ' ' :: rest = d.chars ++ ' ' :: more) : c.chars = d.chars ∧ rest = more := by
  obtain ⟨hchars, htail⟩ := append_inj_of_run (p := fun x => x ≠ ' ')
    (fun _ hx => (hc.ne_of_mem hx).1) (fun _ hx => (hd.ne_of_mem hx).1) (by simp) (by simp) h
  exact ⟨hchars, (List.cons.inj htail).2⟩

/-- A column does not begin with a parenthesis. -/
theorem Legible.append_ne_paren (hc : c.Legible) : c.chars ++ rest ≠ '(' :: more := by
  intro h
  cases hx : c.chars with
  | nil => simp [chars] at hx
  | cons x tail =>
    rw [hx] at h
    exact (hc.ne_of_mem (hx ▸ List.mem_cons_self)).2 (List.cons.inj h).1

/-- A column has a point before its first blank. -/
theorem Legible.append_ne_not (hc : c.Legible) :
    c.chars ++ ' ' :: rest ≠ "NOT".toList ++ ' ' :: more := by
  intro h
  obtain ⟨hchars, -⟩ := append_inj_of_run (p := fun x => x ≠ ' ')
    (fun _ hx => (hc.ne_of_mem hx).1) (by simp) (by simp) (by simp) h
  have hpoint : '.' ∈ c.chars := by simp [chars]
  rw [hchars] at hpoint
  exact absurd hpoint (by decide)

end Column

theorem CompareOp.spelling_append_inj {op op' : CompareOp} {rest more : List Char}
    (h : op.spelling.toList ++ ' ' :: rest = op'.spelling.toList ++ ' ' :: more) :
    op = op' ∧ rest = more := by
  have hblank : ∀ op : CompareOp, ∀ x ∈ op.spelling.toList, x ≠ ' ' := by
    intro op
    cases op <;> simp [spelling]
  obtain ⟨hs, htail⟩ := append_inj_of_run (p := fun x => x ≠ ' ') (hblank op) (hblank op')
    (by simp) (by simp) h
  refine ⟨?_, (List.cons.inj htail).2⟩
  revert hs
  cases op <;> cases op' <;> decide

/-! ### Expressions -/

namespace Expr

/-- The groups have two members or more, the names are legible and so are the operands. -/
inductive Legible : Expr → Prop
  | compare {column : Column} {value : Value} (op : CompareOp) (hc : column.Legible)
    (hv : value.Legible) : Legible (.compare column op value)
  | and {parts : List Expr} (hlen : 2 ≤ parts.length) (h : ∀ e ∈ parts, Legible e) :
    Legible (.and parts)
  | or {parts : List Expr} (hlen : 2 ≤ parts.length) (h : ∀ e ∈ parts, Legible e) :
    Legible (.or parts)
  | not {part : Expr} (h : Legible part) : Legible (.not part)

/-- One shape, and in each place the same column as it is written, the same comparison and
the same value. -/
inductive Corresponds : Expr → Expr → Prop
  | compare {c d : Column} {op : CompareOp} {v w : Value} (hc : c.chars = d.chars)
    (hv : v.same w = true) : Corresponds (.compare c op v) (.compare d op w)
  | and {as bs : List Expr} (h : List.Forall₂ Corresponds as bs) : Corresponds (.and as) (.and bs)
  | or {as bs : List Expr} (h : List.Forall₂ Corresponds as bs) : Corresponds (.or as) (.or bs)
  | not {a b : Expr} (h : Corresponds a b) : Corresponds (.not a) (.not b)

variable {e f : Expr} {as bs : List Expr} {rest more : List Char}

theorem charsOfParts_cons (separator : List Char) (e : Expr) (parts : List Expr)
    (rest : List Char) : charsOfParts separator (e :: parts) ++ ')' :: rest
      = e.chars ++ following chars separator parts rest := by
  induction parts generalizing e with
  | nil => simp [charsOfParts, following]
  | cons f parts ih => simp [charsOfParts, following_cons, ih]

/-- A group with a word between its members, in front of a rest. -/
def group (word : List Char) (parts : List Expr) (rest : List Char) : List Char :=
  '(' :: (charsOfParts (' ' :: word) parts ++ ')' :: rest)

theorem chars_compare_append (column : Column) (op : CompareOp) (value : Value)
    (rest : List Char) : (compare column op value).chars ++ rest = column.chars ++
      ' ' :: (op.spelling.toList ++ ' ' :: (value.literalChars ++ rest)) := by
  simp [chars]

theorem chars_and_append (parts : List Expr) (rest : List Char) :
    (and parts).chars ++ rest = group "AND ".toList parts rest := by
  simp [chars, group]

theorem chars_or_append (parts : List Expr) (rest : List Char) :
    (or parts).chars ++ rest = group "OR ".toList parts rest := by
  simp [chars, group]

theorem chars_not_append (part : Expr) (rest : List Char) :
    (not part).chars ++ rest = "NOT".toList ++ ' ' :: '(' :: (part.chars ++ ')' :: rest) := by
  simp [chars]

theorem group_cons (word : List Char) (e : Expr) (parts : List Expr) (rest : List Char) :
    group word (e :: parts) rest
      = '(' :: (e.chars ++ following chars (' ' :: word) parts rest) := by
  rw [group, charsOfParts_cons]

theorem group_inj {word : List Char} (ha : 2 ≤ as.length) (hb : 2 ≤ bs.length)
    (ht : ∀ a ∈ as, ∀ b ∈ bs, ToldApart chars Corresponds a b)
    (h : group word as rest = group word bs more) :
    List.Forall₂ Corresponds as bs ∧ rest = more := by
  match as, bs, ha, hb with
  | a :: as, b :: bs, _, _ =>
    rw [group_cons, group_cons] at h
    exact append_following_inj (.inl rfl) ht (List.cons.inj h).2

/-- Behind the first member stands the word of the group. -/
theorem group_ne {word word' : List Char} (hw : ∀ cs cs', word ++ cs ≠ word' ++ cs')
    (ha : 2 ≤ as.length) (hb : 2 ≤ bs.length)
    (ht : ∀ a ∈ as, ∀ b ∈ bs, ToldApart chars Corresponds a b) :
    group word as rest ≠ group word' bs more := by
  intro h
  match as, bs, ha, hb with
  | a :: a' :: as, b :: b' :: bs, _, _ =>
    rw [group_cons, group_cons] at h
    obtain ⟨-, hnext⟩ := ht a List.mem_cons_self b List.mem_cons_self _ _
      (closes_following (.inl rfl) _ _) (closes_following (.inl rfl) _ _) (List.cons.inj h).2
    rw [following_cons, following_cons] at hnext
    exact hw _ _ (List.cons.inj hnext).2

inductive Shape
  | comparison
  | group
  | negation

def shape : Expr → Shape
  | .compare .. => .comparison
  | .and _ | .or _ => .group
  | .not _ => .negation

/-- The shape of the expression whose text begins so. -/
def shapeOfStart (cs : List Char) : Shape :=
  if cs.head? = some '(' then .group
  else if "NOT ".toList.isPrefixOf cs then .negation
  else .comparison

theorem Legible.shapeOfStart (he : e.Legible) (rest : List Char) :
    shapeOfStart (e.chars ++ rest) = e.shape := by
  cases he with
  | @compare column value op hc hv =>
    rw [chars_compare_append, Expr.shapeOfStart, if_neg, if_neg]
    · rfl
    · rw [List.isPrefixOf_iff_prefix]
      rintro ⟨tail, h⟩
      exact hc.append_ne_not h.symm
    · intro h
      obtain ⟨tail, h⟩ := List.head?_eq_some_iff.mp h
      exact hc.append_ne_paren h
  | and => rw [chars_and_append]; rfl
  | or => rw [chars_or_append]; rfl
  | not => rw [chars_not_append]; rfl

theorem Legible.shape_eq (he : e.Legible) (hf : f.Legible)
    (h : e.chars ++ rest = f.chars ++ more) : e.shape = f.shape := by
  rw [← he.shapeOfStart rest, ← hf.shapeOfStart more, h]

/-- An expression is told from any other in front of what may stand behind it. -/
theorem Legible.toldApart (he : e.Legible) (hf : f.Legible) :
    ToldApart chars Corresponds e f := by
  induction he generalizing f with
  | @compare c v op hc hv =>
    intro rest more hr hm h
    have hshape := (Legible.compare op hc hv).shape_eq hf h
    cases hf <;> cases hshape
    next d w op' hd hw =>
      rw [chars_compare_append, chars_compare_append] at h
      obtain ⟨hchars, hnext⟩ := hc.append_inj hd h
      obtain ⟨rfl, hvalue⟩ := CompareOp.spelling_append_inj hnext
      obtain ⟨rfl, hrest⟩ := hv.toldApart hw rest more hr hm hvalue
      exact ⟨.compare hchars hv.same_self, hrest⟩
  | @and as hlen hparts ih =>
    intro rest more hr hm h
    have hshape := (Legible.and hlen hparts).shape_eq hf h
    rw [chars_and_append] at h
    cases hf <;> cases hshape
    next bs hlen' hparts' =>
      rw [chars_and_append] at h
      obtain ⟨hall, hrest⟩ := group_inj hlen hlen' (fun a ha b hb => ih a ha (hparts' b hb)) h
      exact ⟨.and hall, hrest⟩
    next bs hlen' hparts' =>
      -- the first members end at one place, and there another word follows
      rw [chars_or_append] at h
      exact absurd h (group_ne (by simp) hlen hlen' fun a ha b hb => ih a ha (hparts' b hb))
  | @or as hlen hparts ih =>
    intro rest more hr hm h
    have hshape := (Legible.or hlen hparts).shape_eq hf h
    rw [chars_or_append] at h
    cases hf <;> cases hshape
    next bs hlen' hparts' =>
      rw [chars_and_append] at h
      exact absurd h (group_ne (by simp) hlen hlen' fun a ha b hb => ih a ha (hparts' b hb))
    next bs hlen' hparts' =>
      rw [chars_or_append] at h
      obtain ⟨hall, hrest⟩ := group_inj hlen hlen' (fun a ha b hb => ih a ha (hparts' b hb)) h
      exact ⟨.or hall, hrest⟩
  | @not part hpart ih =>
    intro rest more hr hm h
    have hshape := (Legible.not hpart).shape_eq hf h
    rw [chars_not_append] at h
    cases hf <;> cases hshape
    next part' hpart' =>
      rw [chars_not_append] at h
      have hinner := (List.cons.inj (List.cons.inj (List.append_cancel_left h)).2).2
      obtain ⟨hcorresponds, hnext⟩ := ih hpart' _ _ (closes_cons (.inl rfl) rest)
        (closes_cons (.inl rfl) more) hinner
      exact ⟨.not hcorresponds, (List.cons.inj hnext).2⟩

/-- The text stands inside an operand, at any depth. -/
inductive Quotes (s : String) : Expr → Prop
  | compare {column : Column} {op : CompareOp} {value : Value} (h : (Value.text s).Occurs value) :
    Quotes s (.compare column op value)
  | and {part : Expr} {parts : List Expr} (hm : part ∈ parts) (h : Quotes s part) :
    Quotes s (.and parts)
  | or {part : Expr} {parts : List Expr} (hm : part ∈ parts) (h : Quotes s part) :
    Quotes s (.or parts)
  | not {part : Expr} (h : Quotes s part) : Quotes s (.not part)

theorem standsIn_group (word : List Char) (he : e ∈ as) :
    StandsIn e.chars (group word as []) := by
  obtain ⟨f, bs, rfl⟩ := List.exists_cons_of_ne_nil (List.ne_nil_of_mem he)
  rw [group_cons]
  exact (standsIn_following (.inl rfl) he).behind ['(']

theorem Legible.standsIn (he : e.Legible) {s : String} (hs : e.Quotes s) :
    StandsIn (Quoted.quote s) e.chars := by
  induction hs with
  | @compare column op value h =>
    cases he with
    | compare op hc hv =>
      have hvalue := (hv.standsIn h).behind
        (column.chars ++ ' ' :: op.spelling.toList ++ [' '])
      simpa [chars] using hvalue
  | and hm _ ih =>
    cases he with
    | and hlen hparts =>
      have hgroup := standsIn_group "AND ".toList hm
      rw [← chars_and_append, List.append_nil] at hgroup
      exact (ih (hparts _ hm)).trans hgroup
  | or hm _ ih =>
    cases he with
    | or hlen hparts =>
      have hgroup := standsIn_group "OR ".toList hm
      rw [← chars_or_append, List.append_nil] at hgroup
      exact (ih (hparts _ hm)).trans hgroup
  | @not part _ ih =>
    cases he with
    | not hpart =>
      have hnot : StandsIn part.chars (Expr.not part).chars :=
        ⟨"NOT (".toList, [')'], closes_cons (.inl rfl) [], by simp [chars]⟩
      exact (ih hpart).trans hnot

/-- Expressions with one text correspond, and in the text of an expression each text inside an
operand ends at the quote that stands alone: it is read back as it is, up to what stands behind
the literal. -/
theorem text_unambiguous {e : Expr} (he : e.Legible) :
    (∀ f : Expr, f.Legible → e.text = f.text → e.Corresponds f) ∧
      ∀ s : String, e.Quotes s → ∃ before rest,
        e.text.toList = before ++ '\'' :: (Quoted.encode s.toList ++ '\'' :: rest) ∧
          Quoted.decode (Quoted.encode s.toList ++ '\'' :: rest) = some (s.toList, rest) := by
  constructor
  · intro f hf h
    have hchars : e.chars ++ [] = f.chars ++ [] := by
      rw [List.append_nil, List.append_nil, String.ofList_injective h]
    exact (he.toldApart hf [] [] closes_nil closes_nil hchars).1
  · intro s hs
    obtain ⟨before, rest, hr, htext⟩ := he.standsIn hs
    refine ⟨before, rest, ?_, Quoted.decode_encode _ _ hr.head?_ne⟩
    rw [text, String.toList_ofList, htext]
    simp [Quoted.quote]

end Expr

namespace Specimen

/-- A name with every mark of query text in it. -/
def marked : Expr :=
  .and [.compare ⟨node, "name", 1⟩ .eq (.text "o' AND ('"),
    .not (.compare (.root node "id") .within (.list [.null, .int (-3), .text "', "]))]

/-- The same text, with a table whose name looks like the alias of a joined row. -/
def lookalike : Expr :=
  .and [.compare (.root { node with table := "node_1" } "name") .eq (.text "o' AND ('"),
    .not (.compare (.root node "id") .within (.list [.null, .int (-3), .text "', "]))]

end Specimen

namespace Expr

open Specimen in
theorem text_unambiguous_lookalike : marked.Legible ∧ lookalike.Legible ∧
    marked.text = "(node_1.name = 'o'' AND (''' AND NOT (node.id IN (NULL, -3, ''', ')))" ∧
    marked.text = lookalike.text ∧ marked.Corresponds lookalike ∧
    marked.Quotes "', " ∧ ∃ before rest,
      marked.text.toList = before ++ '\'' :: (Quoted.encode "', ".toList ++ '\'' :: rest) ∧
        Quoted.decode (Quoted.encode "', ".toList ++ '\'' :: rest) = some ("', ".toList, rest) := by
  have hnot : Legible (.not (.compare (.root node "id") .within
      (.list [.null, .int (-3), .text "', "]))) := by
    refine .not (.compare _ ⟨by decide, by decide⟩ (.list ?_))
    simp only [List.forall_mem_cons]
    exact ⟨.null, .int _, .text _, by simp⟩
  have hm : marked.Legible := by
    refine .and (by decide) ?_
    simp only [List.forall_mem_cons]
    exact ⟨.compare _ ⟨by decide, by decide⟩ (.text _), hnot, by simp⟩
  have hl : lookalike.Legible := by
    refine .and (by decide) ?_
    simp only [List.forall_mem_cons]
    exact ⟨.compare _ ⟨by decide, by decide⟩ (.text _), hnot, by simp⟩
  have htext : marked.text = lookalike.text := by decide +kernel
  have hquotes : marked.Quotes "', " :=
    .and (.tail _ (.head _)) (.not (.compare (.item (.tail _ (.tail _ (.head _))) .self)))
  obtain ⟨hcorresponds, hread⟩ := text_unambiguous hm
  exact ⟨hm, hl, by decide +kernel, htext, hcorresponds _ hl htext, hquotes, hread _ hquotes⟩

end Expr

end PathQuery
