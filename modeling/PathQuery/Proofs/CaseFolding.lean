import PathQuery.Proofs.DerivedOperators
import PathQuery.Proofs.Wildcards

/-! Matches that ignore case. Text and pattern are folded character by character, and a match
goes through the folding piece by piece: a run stays a run, and a character that stands for
itself turns into the same characters on both sides. Only an underscore is not folded along with
what it stands for, so it must not stand for the dotted capital, which becomes two characters.
Apart from that, what a pattern selects it selects without regard to case as well. -/

namespace PathQuery

/-- The one character whose lower case is not a single one. -/
def dottedCapital : Char := Char.ofNat 0x130

theorem exists_lowerCase_eq {c : Char} (h : c ≠ dottedCapital) : ∃ x, lowerCase c = [x] := by
  have hcode : c.toNat ≠ 0x130 := fun heq => h (by rw [← Char.ofNat_toNat c, heq]; rfl)
  rw [lowerCase, if_neg hcode]
  split
  · exact ⟨_, rfl⟩
  · exact ⟨_, rfl⟩

theorem lowerCase_percent : lowerCase '%' = ['%'] := by decide +kernel

theorem lowerCase_underscore : lowerCase '_' = ['_'] := by decide +kernel

namespace Pattern

variable {pattern text : List Char} {pieces : List (List Char)}

/-- Any character of a pattern matches itself. -/
theorem Fits.cons_self (h : Fits pattern text) (c : Char) : Fits (c :: pattern) (c :: text) := by
  by_cases hr : c = '%'
  · subst hr
    exact .run ['%'] h
  · by_cases ho : c = '_'
    · subst ho
      exact .one '_' h
    · exact .same c hr ho h

theorem Fits.append_self (h : Fits pattern text) (cs : List Char) :
    Fits (cs ++ pattern) (cs ++ text) := by
  induction cs with
  | nil => exact h
  | cons c cs ih => exact ih.cons_self c

/-- What a character of a pattern stands for, an underscore not for the dotted capital. -/
def StandsFolded (c : Char) (piece : List Char) : Prop :=
  Stands c piece ∧ (c = '_' → dottedCapital ∉ piece)

/-- A cut of the text, folded piece by piece. -/
theorem fits_lowerCaseAll (h : List.Forall₂ StandsFolded pattern pieces) :
    Fits (lowerCaseAll pattern) (lowerCaseAll pieces.flatten) := by
  induction h with
  | nil => exact .nil
  | @cons c piece pattern pieces hc _ ih =>
    obtain ⟨hstands, hone⟩ := hc
    rw [lowerCaseAll_cons, List.flatten_cons, lowerCaseAll_append]
    unfold Stands at hstands
    split at hstands
    · next hr =>
      rw [hr, lowerCase_percent]
      exact .run (lowerCaseAll piece) ih
    · split at hstands
      · next ho =>
        obtain ⟨x, rfl⟩ := List.length_eq_one_iff.mp hstands
        obtain ⟨y, hy⟩ := exists_lowerCase_eq (List.ne_of_not_mem_cons (hone ho)).symm
        rw [ho, lowerCase_underscore, lowerCaseAll_cons, hy]
        exact .one y ih
      · rw [hstands, lowerCaseAll_cons]
        simpa [lowerCaseAll] using ih.append_self (lowerCase c)

/-- In a text without the dotted capital, and for a pattern without underscores, every cut will
do. -/
theorem standsFolded_of_stands (h : List.Forall₂ Stands pattern pieces)
    (hone : '_' ∈ pattern → dottedCapital ∉ pieces.flatten) :
    List.Forall₂ StandsFolded pattern pieces := by
  induction h with
  | nil => exact .nil
  | @cons c piece pattern pieces hc _ ih =>
    simp only [List.flatten_cons, List.mem_append, not_or, List.mem_cons] at hone
    exact .cons ⟨hc, fun ho => (hone (.inl ho.symm)).1⟩ (ih fun hm => (hone (.inr hm)).2)

end Pattern

/-- A text that can be cut with no underscore at the dotted capital matches without regard to
case. -/
theorem like_caseInsensitive_of_cut {text pattern : String} {pieces : List (List Char)}
    (h : List.Forall₂ Pattern.StandsFolded pattern.toList pieces)
    (ht : pieces.flatten = text.toList) : like text pattern .caseInsensitive = true := by
  rw [like, Pattern.accepts_iff, TextMode.fold, TextMode.fold, ← ht]
  exact Pattern.fits_lowerCaseAll h

theorem like_caseInsensitive {text pattern : String}
    (hone : '_' ∈ pattern.toList → dottedCapital ∉ text.toList)
    (h : like text pattern .caseSensitive = true) : like text pattern .caseInsensitive = true := by
  rw [like, Pattern.accepts_iff, Pattern.fits_iff_pieces] at h
  obtain ⟨pieces, hpieces, ht⟩ := h
  exact like_caseInsensitive_of_cut
    (Pattern.standsFolded_of_stands hpieces (by rwa [ht])) ht

/-! ### Entries -/

namespace Path

/-- The path with a match that ignores case. -/
def ignoringCase (path : Path) : Path := { path with op := .ilike }

variable {path : Path} {text : String}

theorem parse_ignoringCase (h : parse text = .ok path) (ho : path.op = .like) :
    parse path.ignoringCase.render = .ok path.ignoringCase := by
  obtain ⟨hops, field, op⟩ := path
  subst ho
  obtain ⟨⟨hfilled, hunmarked, hspaced, -⟩, -⟩ := parse_eq_ok_iff.mp h
  rw [segments_token rfl] at hfilled hunmarked hspaced
  rw [List.dropLast_concat] at hspaced
  rw [List.forall_mem_append] at hunmarked
  rw [List.mem_append, not_or] at hfilled
  rw [parse_eq_ok_iff, ignoringCase]
  refine ⟨⟨?_, ?_, ?_, nofun⟩, rfl⟩
  all_goals rw [segments_token rfl]
  · rw [List.mem_append, not_or]
    exact ⟨hfilled.1, by decide⟩
  · rw [List.forall_mem_append]
    exact ⟨hunmarked.1, by decide⟩
  · rw [List.dropLast_concat]
    exact hspaced

end Path

/-- What the entry with the other match asks for differs in this only. -/
theorem Comparison.ofEntry_ignoringCase {schema : Schema} {root : Entity} {text : String}
    {path : Path} {v : Value} {k : Comparison} (hp : Path.parse text = .ok path)
    (ho : path.op = .like) (h : ofEntry schema root (text, v) = .ok k) :
    k.op = .like ∧ k.value = v ∧
      ofEntry schema root (path.ignoringCase.render, v) = .ok { k with op := .ilike } := by
  obtain ⟨path', hp', h⟩ := bind_eq_ok.mp h
  obtain rfl : path = path' := Except.ok.inj (hp.symm.trans hp')
  obtain ⟨hops, hroute, h⟩ := bind_eq_ok.mp h
  obtain ⟨kind, hkind, h⟩ := bind_eq_ok.mp h
  obtain ⟨_, hoperand, h⟩ := bind_eq_ok.mp h
  cases h
  obtain ⟨htext, hpattern⟩ := (checkOperand_eq_ok_iff.mp hoperand).text (.inl ho)
  have happlies : CompareOp.ilike.Applies kind v := ⟨nofun, fun _ => ⟨htext, hpattern⟩⟩
  refine ⟨ho, rfl, ?_⟩
  refine bind_eq_ok.mpr ⟨_, Path.parse_ignoringCase hp ho, ?_⟩
  refine bind_eq_ok.mpr ⟨hops, hroute, ?_⟩
  refine bind_eq_ok.mpr ⟨kind, hkind, ?_⟩
  exact bind_eq_ok.mpr ⟨(), checkOperand_eq_ok_iff.mpr happlies, rfl⟩

namespace Plan

variable {schema : Schema} {p q : Plan}

theorem refine_criteria (schema : Schema) (p : Plan) (c : Criteria) :
    p.refine schema (.criteria c) = (c.compile schema p.root p.joins).map fun r =>
      ⟨p.root, r.2, p.filters ++ r.1⟩ := by
  rw [refine, refineM, applyCriteriaM, outcome_grow, ← Criteria.compile]
  cases c.compile schema p.root p.joins <;> rfl

/-- One entry adds one clause. -/
theorem refine_entry (schema : Schema) (p : Plan) (entry : String × Value) :
    p.refine schema (.criteria ⟨[entry]⟩) = (Comparison.ofEntry schema p.root entry).map fun k =>
      ⟨p.root, p.joins.takeHops k.hops, p.filters ++ [k.expr (p.joins.takeHops k.hops)]⟩ := by
  rw [refine_criteria, Criteria.compile_eq, Criteria.resolve]
  simp only [List.mapM_cons, List.mapM_nil]
  cases Comparison.ofEntry schema p.root entry with
  | error _ => rfl
  | ok k => simp [Except.map, bind, Except.bind, pure, Except.pure, Comparison.allHops]

/-- An entry that asks for a match, and the entry for the one that ignores case, take the same
joins and add clauses that differ in this only. -/
theorem refine_entry_ignoringCase {text : String} {path : Path} {v : Value}
    (hp : Path.parse text = .ok path) (ho : path.op = .like)
    (h : p.refine schema (.criteria ⟨[(text, v)]⟩) = .ok q) :
    ∃ joins column, q = ⟨p.root, joins, p.filters ++ [.compare column .like v]⟩ ∧
      p.refine schema (.criteria ⟨[(path.ignoringCase.render, v)]⟩)
        = .ok ⟨p.root, joins, p.filters ++ [.compare column .ilike v]⟩ := by
  rw [refine_entry] at h
  obtain ⟨k, hk, rfl⟩ := map_eq_ok.mp h
  obtain ⟨hop, hvalue, hk'⟩ := Comparison.ofEntry_ignoringCase hp ho hk
  refine ⟨p.joins.takeHops k.hops, k.column (p.joins.takeHops k.hops), ?_, ?_⟩
  · rw [Comparison.expr, hop, hvalue]
  · rw [refine_entry, hk', ← hvalue]
    rfl

end Plan

/-! ### Rows -/

namespace Store

variable {s : Store} {root : Entity} {joins : List Join} {i : ℕ} {tuple : Tuple}

/-- A tuple consists of stored rows. -/
theorem Follows.stored (h : s.Follows root joins i tuple) {slot : ℕ} {row : FieldMap}
    (hrow : tuple[slot]? = some row) : ∃ name, row ∈ s.rows name := by
  cases slot with
  | zero =>
    obtain ⟨first, hfirst, h0⟩ := h.start
    rw [hrow, Option.some.injEq] at h0
    exact ⟨root.name, h0 ▸ List.mem_of_getElem? hfirst⟩
  | succ k =>
    have hk : k < joins.length := by
      have := (List.getElem?_eq_some_iff.mp hrow).1
      rw [h.length] at this
      omega
    obtain ⟨-, source, target, -, htarget, hmem, -⟩ := h.joined k _ (List.getElem?_eq_getElem hk)
    rw [hrow, Option.some.injEq] at htarget
    exact ⟨_, htarget ▸ hmem⟩

/-- No stored text has the character. -/
def Lacks (s : Store) (c : Char) : Prop :=
  ∀ name, ∀ row ∈ s.rows name, ∀ field t, row.get? field = some (.text t) → c ∉ t.toList

theorem Answers.ignoringCase {filters : List Expr} {joinSet : JoinSet} {column : Column}
    {pattern : String} (hone : '_' ∈ pattern.toList → s.Lacks dottedCapital)
    (h : s.Answers ⟨root, joinSet, filters ++ [.compare column .like (.text pattern)]⟩ i tuple) :
    s.Answers ⟨root, joinSet, filters ++ [.compare column .ilike (.text pattern)]⟩ i tuple := by
  obtain ⟨hfollows, hclauses⟩ := h
  refine ⟨hfollows, ?_⟩
  obtain ⟨hfilters, hlike⟩ := List.forall_mem_append.mp hclauses
  refine List.forall_mem_append.mpr ⟨hfilters, List.forall_mem_singleton.mpr ?_⟩
  have hlike := List.forall_mem_singleton.mp hlike
  simp only [Expr.holds, CompareOp.holds, Option.any_eq_true] at hlike ⊢
  obtain ⟨actual, hread, hfits⟩ := hlike
  refine ⟨actual, hread, ?_⟩
  cases actual with
  | text t =>
    obtain ⟨row, hrow, ht⟩ := Option.bind_eq_some_iff.mp hread
    obtain ⟨name, hmem⟩ := hfollows.stored hrow
    exact like_caseInsensitive (fun hu => hone hu name row hmem _ t ht) hfits
  | _ => cases hfits

theorem positions_ignoringCase {pattern : String}
    (hone : '_' ∈ pattern.toList → s.Lacks dottedCapital) (root : Entity) (joins : JoinSet)
    (filters : List Expr) (column : Column) :
    (s.positions ⟨root, joins, filters ++ [.compare column .like (.text pattern)]⟩).Sublist
      (s.positions ⟨root, joins, filters ++ [.compare column .ilike (.text pattern)]⟩) := by
  apply positions_sublist_of_subset
  intro i hi
  obtain ⟨tuple, ht⟩ := mem_positions.mp hi
  exact mem_positions.mpr ⟨tuple, ht.ignoringCase hone⟩

end Store

/-- Whatever a pattern matches it matches without regard to case, as long as the text can be cut
with no underscore at the dotted capital; and then an entry that asks for the one selects no row
that the entry for the other does not select. -/
theorem ignoring_case_keeps (pattern : String) :
    (∀ (text : String) (pieces : List (List Char)),
      List.Forall₂ Pattern.StandsFolded pattern.toList pieces → pieces.flatten = text.toList →
        like text pattern .caseInsensitive = true) ∧
      (∀ text : String, ('_' ∈ pattern.toList → dottedCapital ∉ text.toList) →
        like text pattern .caseSensitive = true → like text pattern .caseInsensitive = true) ∧
      ∀ (schema : Schema) (p q : Plan) (entry : String) (path : Path),
        Path.parse entry = .ok path → path.op = .like →
          p.refine schema (.criteria ⟨[(entry, .text pattern)]⟩) = .ok q →
            ∃ r, p.refine schema (.criteria ⟨[(path.ignoringCase.render, .text pattern)]⟩) = .ok r ∧
              ∀ s : Store, ('_' ∈ pattern.toList → s.Lacks dottedCapital) →
                (s.positions q).Sublist (s.positions r) ∧
                  (s.execute q).Sublist (s.execute r) := by
  refine ⟨fun _ _ => like_caseInsensitive_of_cut, fun _ => like_caseInsensitive, ?_⟩
  intro schema p q entry path hp ho hq
  obtain ⟨joins, column, rfl, hr⟩ := Plan.refine_entry_ignoringCase hp ho hq
  refine ⟨_, hr, fun s hone => ?_⟩
  have hsub := Store.positions_ignoringCase hone p.root joins p.filters column
  exact ⟨hsub, hsub.filterMap _⟩

open Specimen in
/-- A pattern under either entry, and one whose run has to grow over a mismatch. -/
theorem ignoring_case_keeps_names :
    like "aBcaBd" "%B_" .caseInsensitive = true ∧
      Path.parse "name__like" = .ok ⟨[], "name", .like⟩ ∧
      ∃ q r, (Plan.all treatment).refine Specimen.schema
          (.criteria ⟨[("name__like", .text "t%")]⟩) = .ok q ∧
        (Plan.all treatment).refine Specimen.schema
          (.criteria ⟨[("name__ilike", .text "t%")]⟩) = .ok r ∧
        (ward.positions q).Sublist (ward.positions r) := by
  obtain ⟨-, hlike, -⟩ := ignoring_case_keeps "%B_"
  obtain ⟨-, -, hplans⟩ := ignoring_case_keeps "t%"
  have hp : Path.parse "name__like" = .ok ⟨[], "name", .like⟩ :=
    toOption_eq_some.mp (by decide +kernel)
  have hcompiles : ((Plan.all treatment).refine Specimen.schema
      (.criteria ⟨[("name__like", .text "t%")]⟩)).toOption.isSome = true := by decide +kernel
  obtain ⟨q, hq⟩ := Option.isSome_iff_exists.mp hcompiles
  rw [toOption_eq_some] at hq
  obtain ⟨r, hr, hrows⟩ := hplans _ _ q _ _ hp rfl hq
  have hrender : Path.render (Path.ignoringCase ⟨[], "name", .like⟩) = "name__ilike" := by
    decide +kernel
  rw [hrender] at hr
  exact ⟨hlike _ (by decide) (by decide +kernel), hp, q, r, hq, hr,
    (hrows ward fun hu => absurd hu (by decide +kernel)).1⟩

/-- The dotted capital is one character, and two once its case is ignored. -/
theorem ignoring_case_loses_dottedCapital :
    like (String.singleton dottedCapital) "_" .caseSensitive = true ∧
      like (String.singleton dottedCapital) "_" .caseInsensitive = false := by
  decide +kernel

end PathQuery
