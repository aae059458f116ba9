import PathQuery.Proofs.Meaning
import PathQuery.Proofs.NestedLoop
import PathQuery.Proofs.PathGrammar
import PathQuery.Proofs.Rereading
import PathQuery.Proofs.Verdict

/-! Comparisons that stand for others. Membership asks whether one of several equalities holds,
and an order that admits equality, as well as inequality, whether one of two comparisons does.
The three ways of comparing two values agree on what is undefined as long as the operand is no
list and no record, so a leaf and its expansion hold for the same tuples and may replace each
other anywhere, also below a negation. The expansion asks about the same attribute by the same
hops, which the join set takes once. A path has to keep its segments when a token comes after it;
it does not when its attribute ends in an underscore. -/

namespace PathQuery

open Comparison (allHops)

/-! ### Paths before a token -/

namespace Segments

variable {cs first piece rest : List Char} {pieces : List (List Char)}

theorem join_concat (first piece : List Char) (pieces : List (List Char)) :
    join first (pieces ++ [piece]) = join first pieces ++ mark ++ piece := by
  induction pieces generalizing first with
  | nil => simp [join, mark]
  | cons next pieces ih => simp [join, ih, mark]

/-- What comes after a text leaves its empty pieces empty. -/
theorem Splits.nil_mem_append (h : Splits cs pieces) (hm : [] ∈ pieces) (rest : List Char) :
    ∃ more, Splits (cs ++ mark ++ rest) more ∧ [] ∈ more := by
  induction h with
  | last h =>
    obtain rfl := List.mem_singleton.mp hm
    have hnil : ¬ mark <:+: [] ++ ['_'] := by decide
    exact ⟨_, .next hnil (splits_cut rest), List.mem_cons_self⟩
  | @next piece tail pieces h hr ih =>
    rw [List.append_assoc (piece ++ mark), List.append_assoc (piece ++ mark)]
    rcases List.mem_cons.mp hm with rfl | hm
    · exact ⟨_, .next h (splits_cut _), List.mem_cons_self⟩
    · obtain ⟨more, hmore, hnil⟩ := ih hm
      exact ⟨_, .next h hmore, List.mem_cons_of_mem _ hnil⟩

end Segments

theorem empty_mem_segments_iff {text : String} :
    "" ∈ segments text ↔ ∃ pieces, Segments.Splits text.toList pieces ∧ [] ∈ pieces := by
  simp only [Segments.splits_iff, exists_eq_left', ← map_toList_segments, List.mem_map,
    String.toList_eq_nil_iff, exists_eq_right]

theorem empty_mem_segments_append {text : String} (h : "" ∈ segments text) (more : String) :
    "" ∈ segments (text ++ "__" ++ more) := by
  obtain ⟨pieces, hsplits, hm⟩ := empty_mem_segments_iff.mp h
  rw [empty_mem_segments_iff]
  simpa [Segments.mark] using hsplits.nil_mem_append hm more.toList

theorem joinSegments_concat {parts : List String} (h : parts ≠ []) (part : String) :
    joinSegments (parts ++ [part]) = joinSegments parts ++ "__" ++ part := by
  cases parts with
  | nil => exact absurd rfl h
  | cons first parts =>
    apply String.toList_inj.mp
    simp [joinSegments, Segments.join_concat, Segments.mark]

namespace Path

/-- A path with the token of a comparison after it. -/
def suffixed (p : String) (op : CompareOp) : String :=
  match op.token? with
  | none => p
  | some token => p ++ "__" ++ token

/-- A text that names the same attribute with a token after it: its last segment is no token
already, and when it can be read its attribute does not end in an underscore, which would be
taken for the first half of the mark. -/
structure Extendable (p : String) : Prop where
  plain : ∀ op : CompareOp, op.token? ≠ (PathQuery.segments p).getLast?
  spaced : ∀ path, parse p = .ok path → path.field.toList.getLast? ≠ some '_'

variable {p : String} {path : Path} {op : CompareOp}

theorem segments_of_parse (h : parse p = .ok path) : PathQuery.segments p = path.segments := by
  obtain ⟨hcanonical, hrender⟩ := parse_eq_ok_iff.mp h
  rw [← hrender, segments_render_iff]
  exact ⟨hcanonical.unmarked, hcanonical.spaced⟩

theorem Extendable.op_eq (hp : Extendable p) (h : parse p = .ok path) : path.op = .eq := by
  by_contra hne
  obtain ⟨token, ht⟩ := Option.ne_none_iff_exists'.mp (mt token?_eq_none_iff.mp hne)
  apply hp.plain path.op
  rw [segments_of_parse h, segments, ht]
  simp

theorem extendable_of_parse (h : parse p = .ok path) (ho : path.op = .eq)
    (hf : path.field.toList.getLast? ≠ some '_') : Extendable p := by
  refine ⟨fun op => ?_, fun other hother => ?_⟩
  · rw [segments_of_parse h, segments, token?_eq_none_iff.mpr ho]
    simpa using (parse_eq_ok_iff.mp h).1.named ho op
  · rw [h] at hother
    obtain rfl := Except.ok.inj hother
    exact hf

theorem segments_token {token : String} (ht : op.token? = some token) (hops : List String)
    (field : String) : segments ⟨hops, field, op⟩ = segments ⟨hops, field, .eq⟩ ++ [token] := by
  simp [segments, ht, token?_eq_none_iff.mpr rfl]

theorem Canonical.withToken {hops : List String} {field token : String}
    (h : Canonical ⟨hops, field, .eq⟩) (hf : field.toList.getLast? ≠ some '_')
    (ht : op.token? = some token) : Canonical ⟨hops, field, op⟩ := by
  have hsegments := segments_token ht hops field
  have hnames : segments ⟨hops, field, .eq⟩ = hops ++ [field] := by
    simp [segments, token?_eq_none_iff.mpr rfl]
  have hspaced := h.spaced
  rw [hnames, List.dropLast_concat] at hspaced
  constructor
  · rw [hsegments, List.mem_append, not_or, List.mem_singleton]
    exact ⟨h.filled, (filled_of_token ht).1.symm⟩
  · rw [hsegments, List.forall_mem_append, List.forall_mem_singleton]
    exact ⟨h.unmarked, by cases op <;> cases ht <;> decide⟩
  · rw [hsegments, List.dropLast_concat, hnames, List.forall_mem_append,
      List.forall_mem_singleton]
    exact ⟨hspaced, hf⟩
  · rintro rfl
    cases ht

theorem Extendable.parse_suffixed (hp : Extendable p) (h : parse p = .ok path) (op : CompareOp) :
    parse (suffixed p op) = .ok { path with op := op } := by
  have heq := hp.op_eq h
  obtain ⟨hops, field, _⟩ := path
  subst heq
  rw [suffixed]
  cases ht : op.token? with
  | none =>
    obtain rfl := token?_eq_none_iff.mp ht
    exact h
  | some token =>
    obtain ⟨hcanonical, hrender⟩ := parse_eq_ok_iff.mp h
    have hne : segments ⟨hops, field, .eq⟩ ≠ [] := by simp [segments]
    rw [parse_eq_ok_iff, render, segments_token ht, joinSegments_concat hne, ← render, hrender]
    exact ⟨hcanonical.withToken (hp.spaced _ h) ht, rfl⟩

/-- A token does not make a text readable. -/
theorem Extendable.not_parse_suffixed (hp : Extendable p) (h : ¬ ∃ path, parse p = .ok path)
    (op : CompareOp) : ¬ ∃ path, parse (suffixed p op) = .ok path := by
  rw [suffixed]
  cases ht : op.token? with
  | none => exact h
  | some token =>
    have hempty : "" ∈ PathQuery.segments p := by
      by_contra hfilled
      have hne : p ≠ "" := by
        rintro rfl
        rw [segments_empty] at hfilled
        exact hfilled (List.mem_singleton_self "")
      refine h (exists_parse_iff.mpr ⟨hne, hfilled, fun op ho => hp.plain op ?_⟩)
      rw [(segments_eq_singleton_iff ho).mpr rfl, ho]
      rfl
    exact fun hparse => (exists_parse_iff.mp hparse).2.1 (empty_mem_segments_append hempty token)

end Path

/-! ### Comparing one value with one operand -/

namespace Value

/-- Equality is the order's, but for lists and records. -/
theorem equal?_eq_order? {v : Value} (hv : v.isNested = false) (a : Value) :
    a.equal? v = (a.order? v).map (· == .eq) := by
  cases ha : a.numeric? with
  | some x =>
    rw [equal?_of_numeric ha, order?_of_numeric ha]
    cases v.numeric? <;> rfl
  | none =>
    cases a <;> cases v <;> simp_all [equal?, order?, numeric?, isNested]

theorem order_of_equal? {a v : Value} {o : Ordering} (h : a.equal? v = some true)
    (ho : a.order? v = some o) : o = .eq := by
  cases hv : v.isNested with
  | true => rw [order?_of_nested hv] at ho; cases ho
  | false =>
    rw [equal?_eq_order? hv, ho] at h
    simpa using h

end Value

namespace CompareOp

variable {op first second : CompareOp} {v : Value}

/-- The comparisons that apply to every attribute and every operand. -/
def plain : List CompareOp := [.eq, .ne, .lt, .le, .gt, .ge]

/-- Two comparisons of which one holds where this one does. -/
def split? : CompareOp → Option (CompareOp × CompareOp)
  | .le => some (.lt, .eq)
  | .ge => some (.gt, .eq)
  | .ne => some (.lt, .gt)
  | _ => none

theorem applies_of_mem_plain (h : op ∈ plain) (kind : ScalarKind) (v : Value) :
    op.Applies kind v := by
  apply applies_of_ne
  all_goals
    rintro rfl
    revert h
    decide

theorem mem_plain_of_split (h : op.split? = some (first, second)) :
    op ∈ plain ∧ first ∈ plain ∧ second ∈ plain := by
  cases op <;> cases h <;> decide

theorem holds_split (h : op.split? = some (first, second)) (hv : v.isNested = false) (a : Value) :
    op.holds a v = (first.holds a v || second.holds a v) := by
  have he := Value.equal?_eq_order? hv a
  cases op <;> cases h <;> simp only [holds, he] <;> rcases a.order? v with _ | _ | _ | _ <;> rfl

theorem holds_within (a : Value) (items : List Value) :
    CompareOp.within.holds a (.list items) = items.any (CompareOp.eq.holds a) := by
  rw [Bool.eq_iff_iff, List.any_eq_true, holds, beq_iff_eq, Value.among?]
  exact Value.amongItems?_eq_some_true

theorem holds_eq_iff {a : Value} : eq.holds a v = true ↔ a.equal? v = some true := beq_iff_eq

theorem holds_lt_iff {a : Value} : lt.holds a v = true ↔ a.order? v = some .lt := by
  rw [holds]
  rcases a.order? v with _ | _ | _ | _ <;> simp

theorem holds_gt_iff {a : Value} : gt.holds a v = true ↔ a.order? v = some .gt := by
  rw [holds]
  rcases a.order? v with _ | _ | _ | _ <;> simp

/-- Less, equal and greater exclude each other. -/
theorem eq_of_holds (ho : op ∈ [.lt, .eq, .gt]) (hs : second ∈ [.lt, .eq, .gt]) {a : Value}
    (h : op.holds a v = true) (h' : second.holds a v = true) : op = second := by
  have heq := fun o => Value.order_of_equal? (a := a) (v := v) (o := o)
  simp only [List.mem_cons, List.not_mem_nil, or_false] at ho hs
  rcases ho with rfl | rfl | rfl <;> rcases hs with rfl | rfl | rfl <;>
    simp_all [holds_eq_iff, holds_lt_iff, holds_gt_iff]

end CompareOp

/-! ### Entries of one path -/

section Entries

variable {schema : Schema} {root : Entity} {p : String} {op : CompareOp} {v : Value}

/-- The same attribute, compared in another way. -/
def Comparison.asking (k : Comparison) (op : CompareOp) (v : Value) : Comparison :=
  { k with op := op, value := v }

/-- The equality with null that a path asks for. Every other comparison under the path has its hops
and its attribute. -/
def Comparison.ofPath? (schema : Schema) (root : Entity) (p : String) : Option Comparison :=
  (Comparison.ofEntry schema root (p, .null)).toOption

theorem Comparison.ofEntry_of_not_parse (h : ¬ ∃ path, Path.parse p = .ok path) (v : Value) :
    (ofEntry schema root (p, v)).toOption = none := by
  cases hp : Path.parse p with
  | error e => rw [ofEntry, hp]; rfl
  | ok path => exact absurd ⟨path, hp⟩ h

/-- A token changes the comparison and nothing else. -/
theorem Comparison.ofEntry_suffixed (hp : Path.Extendable p) (ho : ∀ kind, op.Applies kind v) :
    (ofEntry schema root (Path.suffixed p op, v)).toOption
      = (ofPath? schema root p).map fun k => k.asking op v := by
  by_cases hparse : ∃ path, Path.parse p = .ok path
  · obtain ⟨⟨names, field, _⟩, hpath⟩ := hparse
    obtain rfl := hp.op_eq hpath
    rw [ofPath?, ofEntry, ofEntry, hp.parse_suffixed hpath, hpath]
    change Except.toOption (route schema none root names >>= _) =
      Option.map _ (Except.toOption (route schema none root names >>= _))
    cases route schema none root names with
    | error _ => rfl
    | ok hops =>
      change Except.toOption ((arrival root hops).comparable field >>= _) =
        Option.map _ (Except.toOption ((arrival root hops).comparable field >>= _))
      cases (arrival root hops).comparable field with
      | error _ => rfl
      | ok kind =>
        change Except.toOption (checkOperand _ _ _ op v >>= _) = _
        rw [checkOperand_eq_ok_iff.mpr (ho kind)]
        rfl
  · rw [ofPath?, ofEntry_of_not_parse hparse,
      ofEntry_of_not_parse (hp.not_parse_suffixed hparse op)]
    rfl

namespace Criteria

/-- One entry: a path with a token, and its operand. -/
def single (p : String) (op : CompareOp) (v : Value) : Criteria := ⟨[(Path.suffixed p op, v)]⟩

theorem comparisons_single (hp : Path.Extendable p) (ho : ∀ kind, op.Applies kind v) :
    (single p op v).comparisons schema root
      = ((Comparison.ofPath? schema root p).map fun k => k.asking op v).toList := by
  rw [comparisons, single, List.filterMap_cons, Comparison.ofEntry_suffixed hp ho]
  cases Comparison.ofPath? schema root p <;> rfl

theorem accept_single (hp : Path.Extendable p) (ho : ∀ kind, op.Applies kind v) :
    (single p op v).accept schema root = .ok () ↔
      (Comparison.ofPath? schema root p).isSome = true := by
  have hoption : (Comparison.ofEntry schema root (Path.suffixed p op, v)).toOption = _ :=
    Comparison.ofEntry_suffixed hp ho
  have hfilled : (single p op v).entries ≠ [] := List.cons_ne_nil _ _
  have hresolve : (∃ cs, (single p op v).resolve schema root = .ok cs) ↔
      ∃ k, Comparison.ofEntry schema root (Path.suffixed p op, v) = .ok k := by
    rw [resolve, exists_mapM_iff, single]
    exact List.forall_mem_singleton
  rw [accept_of_filled hfilled, map_eq_ok]
  simp only [and_true]
  rw [hresolve]
  simp only [← toOption_eq_some, hoption, ← Option.isSome_iff_exists, Option.isSome_map]

end Criteria

end Entries

namespace JoinSet

/-- Comparisons by the same hops need these once. -/
theorem takeHops_of_shared {k : Comparison} {cs : List Comparison} (hne : cs ≠ [])
    (h : ∀ c ∈ cs, c.hops = k.hops) (s : JoinSet) :
    s.takeHops (allHops cs) = s.takeHops k.hops := by
  obtain ⟨c, cs, rfl⟩ := List.exists_cons_of_ne_nil hne
  obtain ⟨hc, hcs⟩ := List.forall_mem_cons.mp h
  have hcovers : (s.takeHops k.hops).Covers cs := by
    intro g hg
    obtain ⟨d, hd, hgd⟩ := List.mem_flatMap.mp hg
    exact contains_takeHops s (hcs d hd ▸ hgd)
  have hsplit : allHops (c :: cs) = k.hops ++ allHops cs := by
    rw [allHops, List.flatMap_cons, hc]
    rfl
  rw [hsplit, takeHops_append, takeHops_of_covers hcovers]

end JoinSet

/-! ### Trees that may replace each other -/

namespace Condition

/-- Leaves joined by disjunction alone. -/
def Disjunctive : Condition → Prop
  | .leaf _ => True
  | .or left right => left.Disjunctive ∧ right.Disjunctive
  | .and _ _ => False
  | .not _ => False

/-- The conditions pass together, and then they take the same joins and hold for the same
tuples. -/
structure Exchangeable (schema : Schema) (root : Entity) (a b : Condition) : Prop where
  accept : a.accept schema root = .ok () ↔ b.accept schema root = .ok ()
  joins : a.accept schema root = .ok () → ∀ s : JoinSet,
    s.takeHops (allHops (a.comparisons schema root))
      = s.takeHops (allHops (b.comparisons schema root))
  holds : a.accept schema root = .ok () → ∀ (s : JoinSet) tuple,
    (a.expr schema root s).holds tuple = (b.expr schema root s).holds tuple

variable {schema : Schema} {root : Entity} {a a' b b' tree : Condition}

theorem Disjunctive.eval (h : tree.Disjunctive) (ρ : Criteria → Bool) :
    tree.eval ρ = tree.leaves.any ρ := by
  induction tree with
  | leaf criteria => simp [Condition.eval, leaves]
  | or left right ihl ihr => rw [Condition.eval, leaves, List.any_append, ihl h.1, ihr h.2]
  | and left right _ _ => exact h.elim
  | not inner _ => exact h.elim

theorem leaves_ne_nil (c : Condition) : c.leaves ≠ [] := by
  induction c with
  | leaf criteria => exact List.cons_ne_nil _ _
  | and left right ih _ => exact List.append_ne_nil_of_left_ne_nil ih _
  | or left right ih _ => exact List.append_ne_nil_of_left_ne_nil ih _
  | not inner ih => exact ih

theorem accept_eq_ok_iff (c : Condition) : c.accept schema root = .ok () ↔
    ∀ leaf ∈ c.leaves, leaf.accept schema root = .ok () := forM_eq_ok_iff

theorem Exchangeable.refl (schema : Schema) (root : Entity) (c : Condition) :
    c.Exchangeable schema root c := ⟨.rfl, fun _ _ => rfl, fun _ _ _ => rfl⟩

theorem Exchangeable.not (h : a.Exchangeable schema root b) :
    (Condition.not a).Exchangeable schema root (.not b) :=
  ⟨h.accept, h.joins, fun ha s tuple => by rw [expr, expr, Expr.holds_not, Expr.holds_not,
    h.holds ha]⟩

/-- A connective sees of its branches whether they pass, their joins and where they hold. -/
theorem Exchangeable.branches {join : Condition → Condition → Condition}
    (truth : Bool → Bool → Bool) (hleaves : ∀ l r, (join l r).leaves = l.leaves ++ r.leaves)
    (htruth : ∀ l r (s : JoinSet) tuple, ((join l r).expr schema root s).holds tuple
      = truth ((l.expr schema root s).holds tuple) ((r.expr schema root s).holds tuple))
    (ha : a.Exchangeable schema root a') (hb : b.Exchangeable schema root b') :
    (join a b).Exchangeable schema root (join a' b') := by
  have haccept : ∀ l r, (join l r).accept schema root = .ok () ↔
      l.accept schema root = .ok () ∧ r.accept schema root = .ok () := by
    intro l r
    simp only [accept_eq_ok_iff, hleaves, List.forall_mem_append]
  have hjoins : ∀ l r (s : JoinSet), s.takeHops (allHops ((join l r).comparisons schema root))
      = (s.takeHops (allHops (l.comparisons schema root))).takeHops
        (allHops (r.comparisons schema root)) := by
    intro l r s
    rw [comparisons, hleaves, List.flatMap_append, JoinSet.takeHops_allHops_append]
    rfl
  refine ⟨?_, fun h s => ?_, fun h s tuple => ?_⟩
  · rw [haccept, haccept, ha.accept, hb.accept]
  · obtain ⟨hl, hr⟩ := (haccept a b).mp h
    rw [hjoins, hjoins, ha.joins hl, hb.joins hr]
  · obtain ⟨hl, hr⟩ := (haccept a b).mp h
    rw [htruth, htruth, ha.holds hl, hb.holds hr]

theorem Exchangeable.and (ha : a.Exchangeable schema root a')
    (hb : b.Exchangeable schema root b') :
    (Condition.and a b).Exchangeable schema root (.and a' b') :=
  branches Bool.and (fun _ _ => rfl) (fun _ _ _ _ => by simp [expr]) ha hb

theorem Exchangeable.or (ha : a.Exchangeable schema root a')
    (hb : b.Exchangeable schema root b') :
    (Condition.or a b).Exchangeable schema root (.or a' b') :=
  branches Bool.or (fun _ _ => rfl) (fun _ _ _ _ => by simp [expr]) ha hb

/-- Alternatives under one path: leaves joined by disjunction that compare the same attribute in
ways that apply to every kind of it. -/
structure Alternatives (p : String) (ways : List (CompareOp × Value)) (tree : Condition) :
    Prop where
  disjunctive : tree.Disjunctive
  leaves : tree.leaves = ways.map fun x => Criteria.single p x.1 x.2
  applies : ∀ x ∈ ways, ∀ kind, x.1.Applies kind x.2

namespace Alternatives

variable {p : String} {ways ways' : List (CompareOp × Value)} {k : Comparison}

theorem ne_nil (h : Alternatives p ways tree) : ways ≠ [] := by
  rintro rfl
  exact leaves_ne_nil tree h.leaves

theorem accept (h : Alternatives p ways tree) (hp : Path.Extendable p) :
    tree.accept schema root = .ok () ↔ ∃ k, Comparison.ofPath? schema root p = some k := by
  rw [accept_eq_ok_iff, h.leaves, List.forall_mem_map,
    forall₂_congr fun x hx => Criteria.accept_single hp (h.applies x hx),
    ← Option.isSome_iff_exists]
  obtain ⟨x, hx⟩ := List.exists_mem_of_ne_nil _ h.ne_nil
  exact ⟨fun h => h x hx, fun h _ _ => h⟩

theorem comparisons (h : Alternatives p ways tree) (hp : Path.Extendable p)
    (hk : Comparison.ofPath? schema root p = some k) :
    tree.comparisons schema root = ways.map fun x => k.asking x.1 x.2 := by
  rw [Condition.comparisons, h.leaves, List.flatMap_map, List.map_eq_flatMap]
  apply List.flatMap_congr
  intro x hx
  rw [Criteria.comparisons_single hp (h.applies x hx), hk]
  rfl

theorem takeHops (h : Alternatives p ways tree) (hp : Path.Extendable p)
    (hk : Comparison.ofPath? schema root p = some k) (s : JoinSet) :
    s.takeHops (allHops (tree.comparisons schema root)) = s.takeHops k.hops := by
  have hne : ways.map (fun x => k.asking x.1 x.2) ≠ [] := by simpa using h.ne_nil
  rw [h.comparisons hp hk]
  exact JoinSet.takeHops_of_shared hne (List.forall_mem_map.mpr fun _ _ => rfl) s

theorem holds (h : Alternatives p ways tree) (hp : Path.Extendable p)
    (hk : Comparison.ofPath? schema root p = some k) (s : JoinSet) (tuple : Tuple) :
    (tree.expr schema root s).holds tuple
      = ((k.column s).read tuple).any fun actual => ways.any fun x => x.1.holds actual x.2 := by
  have hleaf : ∀ x ∈ ways, (((Criteria.single p x.1 x.2).comparisons schema root).all fun c =>
      (c.expr s).holds tuple)
        = ((k.column s).read tuple).any fun actual => x.1.holds actual x.2 := by
    intro x hx
    rw [Criteria.comparisons_single hp (h.applies x hx), hk]
    simp only [Option.map_some, Option.toList_some, List.all_cons, List.all_nil, Bool.and_true]
    rw [Comparison.expr, Expr.holds]
    rfl
  rw [holds_expr, h.disjunctive.eval, h.leaves, Bool.eq_iff_iff, List.any_map, List.any_eq_true]
  simp only [Function.comp_apply, Option.any_eq_true, List.any_eq_true]
  constructor
  · rintro ⟨x, hx, hall⟩
    rw [hleaf x hx] at hall
    obtain ⟨actual, hread, hholds⟩ := (Option.any_eq_true _ _).mp hall
    exact ⟨actual, hread, x, hx, hholds⟩
  · rintro ⟨actual, hread, x, hx, hholds⟩
    refine ⟨x, hx, ?_⟩
    rw [hleaf x hx, hread]
    exact hholds

/-- Of a tree that compiles, the expression reads the slot where the hops of the path end. -/
theorem holds_of_compile (h : Alternatives p ways tree) (hp : Path.Extendable p) {s t : JoinSet}
    {e : Expr} (hc : tree.compile schema root s = .ok (e, t)) :
    ∃ k, Comparison.ofPath? schema root p = some k ∧ ∀ tuple,
      e.holds tuple = ((k.column (s.takeHops k.hops)).read tuple).any fun actual =>
        ways.any fun x => x.1.holds actual x.2 := by
  rw [compile_eq] at hc
  obtain ⟨_, haccept, hpair⟩ := map_eq_ok.mp hc
  obtain ⟨k, hk⟩ := (h.accept hp).mp haccept
  obtain ⟨rfl, rfl⟩ := Prod.mk.inj hpair
  refine ⟨k, hk, fun tuple => ?_⟩
  rw [h.holds hp hk, h.takeHops hp hk]

/-- Trees of alternatives under one path may replace each other when they hold for the same values
of its attribute. -/
theorem exchangeable (ha : Alternatives p ways a) (hb : Alternatives p ways' b)
    (hp : Path.Extendable p)
    (h : ∀ actual : Value, (ways.any fun x => x.1.holds actual x.2)
      = ways'.any fun x => x.1.holds actual x.2) : a.Exchangeable schema root b := by
  refine ⟨(ha.accept hp).trans (hb.accept hp).symm, fun haccept s => ?_, fun haccept s tuple => ?_⟩
  · obtain ⟨k, hk⟩ := (ha.accept hp).mp haccept
    rw [ha.takeHops hp hk, hb.takeHops hp hk]
  · obtain ⟨k, hk⟩ := (ha.accept hp).mp haccept
    simp only [ha.holds hp hk, hb.holds hp hk, h]

end Alternatives

/-- A leaf is a tree of one alternative. -/
theorem alternatives_single {op : CompareOp} {v : Value} (p : String)
    (h : ∀ kind, op.Applies kind v) : Alternatives p [(op, v)] (leaf (.single p op v)) :=
  ⟨trivial, rfl, List.forall_mem_singleton.mpr h⟩

/-! ### Expansions -/

/-- A tree with some leaves expanded: membership into equalities with the items of the list, and
a comparison that splits into the two that it stands for. -/
inductive Expands : Condition → Condition → Prop
  | within {p : String} {items : List Value} {tree : Condition} (hp : Path.Extendable p)
    (ht : tree.Disjunctive) (hl : tree.leaves = items.map (Criteria.single p .eq)) :
    Expands (leaf (.single p .within (.list items))) tree
  | split {p : String} {op first second : CompareOp} {v : Value} (hp : Path.Extendable p)
    (ho : op.split? = some (first, second)) (hv : v.isNested = false) :
    Expands (leaf (.single p op v)) (.or (leaf (.single p first v)) (leaf (.single p second v)))
  | same (c : Condition) : Expands c c
  | and {a a' b b' : Condition} (ha : Expands a a') (hb : Expands b b') :
    Expands (.and a b) (.and a' b')
  | or {a a' b b' : Condition} (ha : Expands a a') (hb : Expands b b') :
    Expands (.or a b) (.or a' b')
  | not {a a' : Condition} (ha : Expands a a') : Expands (.not a) (.not a')

theorem exchangeable_within {p : String} {items : List Value} (hp : Path.Extendable p)
    (ht : tree.Disjunctive) (hl : tree.leaves = items.map (Criteria.single p .eq)) :
    (leaf (.single p .within (.list items))).Exchangeable schema root tree := by
  have hleaf : Alternatives p [(.within, .list items)] (leaf (.single p .within (.list items))) :=
    alternatives_single p fun _ => ⟨fun _ => ⟨items, rfl⟩, by rintro (h | h) <;> cases h⟩
  have htree : Alternatives p (items.map (CompareOp.eq, ·)) tree := by
    refine ⟨ht, by rw [hl, List.map_map]; rfl, List.forall_mem_map.mpr fun v _ kind => ?_⟩
    exact CompareOp.applies_of_mem_plain List.mem_cons_self kind v
  refine hleaf.exchangeable htree hp fun actual => ?_
  rw [List.any_cons, List.any_nil, Bool.or_false, CompareOp.holds_within, List.any_map]
  rfl

theorem exchangeable_split {p : String} {op first second : CompareOp} {v : Value}
    (hp : Path.Extendable p) (ho : op.split? = some (first, second)) (hv : v.isNested = false) :
    (leaf (.single p op v)).Exchangeable schema root
      (.or (leaf (.single p first v)) (leaf (.single p second v))) := by
  obtain ⟨hop, hfirst, hsecond⟩ := CompareOp.mem_plain_of_split ho
  have hways : ∀ x ∈ [(first, v), (second, v)], ∀ kind, x.1.Applies kind x.2 := by
    simpa using ⟨fun kind => CompareOp.applies_of_mem_plain hfirst kind v,
      fun kind => CompareOp.applies_of_mem_plain hsecond kind v⟩
  have htree : Alternatives p [(first, v), (second, v)]
      (.or (leaf (.single p first v)) (leaf (.single p second v))) :=
    ⟨⟨trivial, trivial⟩, rfl, hways⟩
  have hleaf := alternatives_single p fun kind => CompareOp.applies_of_mem_plain hop kind v
  refine hleaf.exchangeable htree hp fun actual => ?_
  simp [CompareOp.holds_split ho hv]

theorem Expands.exchangeable (h : Expands a b) : a.Exchangeable schema root b := by
  induction h with
  | within hp ht hl => exact exchangeable_within hp ht hl
  | split hp ho hv => exact exchangeable_split hp ho hv
  | same c => exact .refl schema root c
  | and _ _ iha ihb => exact iha.and ihb
  | or _ _ iha ihb => exact iha.or ihb
  | not _ ih => exact ih.not

/-- Less, equal and greater under one path never hold together. -/
theorem not_holds_both {p : String} {op other : CompareOp} {v : Value} (hp : Path.Extendable p)
    (ho : op ∈ [.lt, .eq, .gt]) (hother : other ∈ [.lt, .eq, .gt]) (hne : op ≠ other)
    {s t t' : JoinSet} {e e' : Expr}
    (h : (leaf (.single p op v)).compile schema root s = .ok (e, t))
    (h' : (leaf (.single p other v)).compile schema root s = .ok (e', t')) (tuple : Tuple) :
    ¬ (e.holds tuple = true ∧ e'.holds tuple = true) := by
  have hplain : [CompareOp.lt, .eq, .gt] ⊆ CompareOp.plain := by decide
  have hleaf := alternatives_single p fun kind =>
    CompareOp.applies_of_mem_plain (hplain ho) kind v
  have hleaf' := alternatives_single p fun kind =>
    CompareOp.applies_of_mem_plain (hplain hother) kind v
  obtain ⟨k, hk, hholds⟩ := hleaf.holds_of_compile hp h
  obtain ⟨k', hk', hholds'⟩ := hleaf'.holds_of_compile hp h'
  obtain rfl : k = k' := Option.some.inj (hk.symm.trans hk')
  simp only [List.any_cons, List.any_nil, Bool.or_false, Option.any_eq_true, hholds, hholds']
  rintro ⟨⟨actual, hread, hop⟩, actual', hread', hop'⟩
  obtain rfl : actual = actual' := Option.some.inj (hread.symm.trans hread')
  exact hne (CompareOp.eq_of_holds ho hother hop hop')

end Condition

/-! ### Plans -/

namespace Plan

/-- Two failures, or plans with the same joins that select the same rows of every store. -/
inductive Interchangeable : Except CriteriaError Plan → Except CriteriaError Plan → Prop
  | error (e e' : CriteriaError) : Interchangeable (.error e) (.error e')
  | ok {p q : Plan} (root : p.root = q.root) (joins : p.joins = q.joins)
    (rows : ∀ s : Store, s.positions p = s.positions q ∧ s.execute p = s.execute q) :
    Interchangeable (.ok p) (.ok q)

theorem Interchangeable.isSome_eq {x y : Except CriteriaError Plan} (h : Interchangeable x y) :
    x.toOption.isSome = y.toOption.isSome := by
  cases h <;> rfl

theorem interchangeable_of_exchangeable {schema : Schema} {p : Plan} {a b : Condition}
    (h : a.Exchangeable schema p.root b) :
    Interchangeable (p.refine schema (.condition a)) (p.refine schema (.condition b)) := by
  rw [refine_condition, refine_condition, Condition.compile_eq, Condition.compile_eq]
  cases ha : a.accept schema p.root with
  | error e =>
    cases hb : b.accept schema p.root with
    | error e' => exact .error e e'
    | ok _ =>
      rw [h.accept.mpr hb] at ha
      cases ha
  | ok _ =>
    rw [h.accept.mp ha]
    let q : Plan := ⟨p.root, p.joins.takeHops (allHops (a.comparisons schema p.root)),
      p.filters ++ [a.expr schema p.root (p.joins.takeHops
        (allHops (a.comparisons schema p.root)))]⟩
    let r : Plan := ⟨p.root, p.joins.takeHops (allHops (b.comparisons schema p.root)),
      p.filters ++ [b.expr schema p.root (p.joins.takeHops
        (allHops (b.comparisons schema p.root)))]⟩
    have hr : q.root = r.root := rfl
    have hj : q.joins = r.joins := h.joins ha p.joins
    have hc : ∀ tuple, (∀ e ∈ q.filters, e.holds tuple = true) ↔
        ∀ e ∈ r.filters, e.holds tuple = true := by
      intro tuple
      simp only [q, r, List.forall_mem_append, List.forall_mem_singleton, h.joins ha, h.holds ha]
    exact .ok hr hj fun s =>
      ⟨Store.positions_congr hr hj hc s, Store.execute_congr hr hj hc s⟩

/-- Expanding leaves that ask for membership, for an order that admits equality or for inequality
changes neither whether a tree compiles nor the joins nor the rows of any store, wherever the
leaves stand. Of less, equal and greater under one path two never hold for the same tuple. -/
theorem refine_expands (schema : Schema) (p : Plan) :
    (∀ a b, Condition.Expands a b →
      Interchangeable (p.refine schema (.condition a)) (p.refine schema (.condition b))) ∧
    ∀ path, Path.Extendable path → ∀ v (op other : CompareOp), op ∈ [.lt, .eq, .gt] →
      other ∈ [.lt, .eq, .gt] → op ≠ other → ∀ e t e' t',
        (Condition.leaf (.single path op v)).compile schema p.root p.joins = .ok (e, t) →
          (Condition.leaf (.single path other v)).compile schema p.root p.joins = .ok (e', t') →
            ∀ tuple, ¬ (e.holds tuple = true ∧ e'.holds tuple = true) :=
  ⟨fun _ _ h => interchangeable_of_exchangeable h.exchangeable,
    fun _ hp _ _ _ ho hother hne _ _ _ _ h h' =>
      Condition.not_holds_both hp ho hother hne h h'⟩

end Plan

namespace Specimen

open Condition (leaf)

/-- No treatment of a bad category that goes by another name. -/
def harmless : Condition :=
  .not (.and (leaf (.single "status__category__label" .within (.list [.null, .text "bad"])))
    (leaf (.single "name" .ne (.text "t1"))))

/-- The same in equalities and strict orders. -/
def spelledOut : Condition :=
  .not (.and (.or (leaf (.single "status__category__label" .eq .null))
      (leaf (.single "status__category__label" .eq (.text "bad"))))
    (.or (leaf (.single "name" .lt (.text "t1"))) (leaf (.single "name" .gt (.text "t1")))))

/-- An attribute whose name ends in an underscore. -/
def parcel : Entity :=
  ⟨"specimen.Parcel", "Parcel", "parcel", ["id"],
    [.scalar "id" .int, .scalar "type_" .text]⟩

theorem extendable_label : Path.Extendable "status__category__label" := by
  have h : Path.parse "status__category__label" = .ok ⟨["status", "category"], "label", .eq⟩ :=
    toOption_eq_some.mp (by decide +kernel)
  exact Path.extendable_of_parse h rfl (by decide +kernel)

theorem extendable_name : Path.Extendable "name" := by
  have h : Path.parse "name" = .ok ⟨[], "name", .eq⟩ := toOption_eq_some.mp (by decide +kernel)
  exact Path.extendable_of_parse h rfl (by decide +kernel)

end Specimen

namespace Plan

open Condition (leaf Expands)

open Specimen in
/-- Null in a list makes one of the equalities undefined, and the negation leaves that alone. -/
theorem refine_expands_harmless :
    Expands harmless spelledOut ∧
      Interchangeable ((Plan.all treatment).refine Specimen.schema (.condition harmless))
        ((Plan.all treatment).refine Specimen.schema (.condition spelledOut)) ∧
      ((Plan.all treatment).refine Specimen.schema (.condition harmless)).toOption.map (fun q =>
        (q.joins.targets, ward.positions q)) = some ([status, category], [0]) ∧
      ∃ e t e' t', (leaf (.single "name" .lt (.text "t2"))).compile Specimen.schema treatment ∅
          = .ok (e, t) ∧
        (leaf (.single "name" .eq (.text "t2"))).compile Specimen.schema treatment ∅
          = .ok (e', t') ∧ ∀ tuple, ¬ (e.holds tuple = true ∧ e'.holds tuple = true) := by
  have h : Expands harmless spelledOut := by
    refine .not (.and ?_ ?_)
    · exact .within extendable_label ⟨trivial, trivial⟩ rfl
    · exact .split extendable_name rfl rfl
  have hless : ((leaf (.single "name" .lt (.text "t2"))).compile Specimen.schema treatment
      ∅).toOption.isSome = true := by decide +kernel
  have hequal : ((leaf (.single "name" .eq (.text "t2"))).compile Specimen.schema treatment
      ∅).toOption.isSome = true := by decide +kernel
  obtain ⟨⟨e, t⟩, he⟩ := Option.isSome_iff_exists.mp hless
  obtain ⟨⟨e', t'⟩, he'⟩ := Option.isSome_iff_exists.mp hequal
  rw [toOption_eq_some] at he he'
  have hplans := refine_expands Specimen.schema (Plan.all treatment)
  exact ⟨h, hplans.1 _ _ h, by decide +kernel, e, t, e', t', he, he',
    hplans.2 _ extendable_name (.text "t2") .lt .eq (by decide) (by decide) (by decide)
      e t e' t' he he'⟩

open Specimen in
/-- The underscore at the end of the attribute goes to the mark, and the token gets another. -/
theorem refine_within_of_underscore :
    (∀ op : CompareOp, op.token? ≠ (segments "type_").getLast?) ∧
      ¬ Interchangeable
        ((Plan.all parcel).refine (.ofList [(parcel.name, parcel)])
          (.condition (leaf (.single "type_" .within (.list [.text "a"])))))
        ((Plan.all parcel).refine (.ofList [(parcel.name, parcel)])
          (.condition (leaf (.single "type_" .eq (.text "a"))))) := by
  constructor
  · have hsegments : segments "type_" = ["type_"] := by decide +kernel
    intro op
    rw [hsegments]
    cases op <;> decide +kernel
  · have hwithin : ((Plan.all parcel).refine (.ofList [(parcel.name, parcel)])
        (.condition (leaf (.single "type_" .within (.list [.text "a"]))))).toOption.isSome
          = false := by decide +kernel
    have heq : ((Plan.all parcel).refine (.ofList [(parcel.name, parcel)])
        (.condition (leaf (.single "type_" .eq (.text "a"))))).toOption.isSome = true := by
      decide +kernel
    exact fun h => Bool.false_ne_true (hwithin.symm.trans (h.isSome_eq.trans heq))

end Plan

end PathQuery
