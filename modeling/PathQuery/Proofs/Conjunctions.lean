import PathQuery.Proofs.Narrowing
import PathQuery.Proofs.Rewriting

/-! Ways of asking for all entries of some criteria. They can go to a plan as they are or as a
leaf; cut into parts, they can go as a tree of conjunctions, as one step for each part, or as a
search that has some of the parts as conditions and the others as criteria. All of these come to
the same: the entries are resolved in their order, so the first that fails gives the error; their
hops are taken in that order, so the joins are the same; and a tuple has to satisfy all their
comparisons, whatever expressions these are packed in. -/

namespace PathQuery

open Comparison (allHops)

variable {schema : Schema} {root : Entity}

/-! ### Criteria in parts -/

namespace Criteria

/-- The entries of some criteria one after another. -/
def concat (parts : List Criteria) : Criteria := ⟨parts.flatMap entries⟩

/-- The criteria are made of these parts, and none of the parts is empty. -/
structure Cut (c : Criteria) (parts : List Criteria) : Prop where
  whole : concat parts = c
  filled : ∀ part ∈ parts, part.entries ≠ []

variable {part : Criteria} {parts : List Criteria}

theorem concat_cons (part : Criteria) (parts : List Criteria) :
    concat (part :: parts) = ⟨part.entries ++ (concat parts).entries⟩ := rfl

theorem concat_append (parts more : List Criteria) :
    concat (parts ++ more) = ⟨(concat parts).entries ++ (concat more).entries⟩ := by
  simp [concat]

@[simp] theorem concat_singleton (part : Criteria) : concat [part] = part := by simp [concat]

theorem resolve_append (a b : List (String × Value)) : resolve schema root ⟨a ++ b⟩
    = resolve schema root ⟨a⟩ >>= fun cs => (resolve schema root ⟨b⟩).map (cs ++ ·) := by
  rw [resolve, List.mapM_append]
  rfl

theorem comparisons_concat (parts : List Criteria) :
    (concat parts).comparisons schema root = parts.flatMap (comparisons schema root) :=
  List.filterMap_flatMap

/-- Parts that are not empty pass as leaves when their entries resolve. -/
theorem forM_accept (h : ∀ part ∈ parts, part.entries ≠ []) :
    parts.forM (accept schema root) = ((concat parts).resolve schema root).map fun _ => () := by
  induction parts with
  | nil => rfl
  | cons part parts ih =>
    obtain ⟨hpart, hrest⟩ := List.forall_mem_cons.mp h
    have hcons : (part :: parts).forM (accept schema root)
        = (part.accept schema root).bind fun _ => parts.forM (accept schema root) := rfl
    rw [hcons, accept_of_filled hpart, ih hrest, concat_cons, resolve_append]
    cases part.resolve schema root with
    | error _ => rfl
    | ok cs =>
      change Except.map _ (resolve schema root (concat parts)) = Except.map _
        (Except.map _ (resolve schema root (concat parts)))
      cases resolve schema root (concat parts) <;> rfl

end Criteria

/-! ### Trees of conjunctions -/

namespace Condition

/-- Leaves joined by conjunction alone. -/
def Conjunctive : Condition → Prop
  | .leaf _ => True
  | .and left right => left.Conjunctive ∧ right.Conjunctive
  | .or _ _ => False
  | .not _ => False

/-- A conjunction that begins at the left: `(a & b) & c`. -/
def nestLeft (first : Criteria) (rest : List Criteria) : Condition :=
  rest.foldl (fun c part => .and c (.leaf part)) (.leaf first)

/-- A conjunction that begins at the right: `a & (b & c)`. -/
def nestRight : Criteria → List Criteria → Condition
  | first, [] => .leaf first
  | first, next :: rest => .and (.leaf first) (nestRight next rest)

theorem conjunctive_leaf (c : Criteria) : (leaf c).Conjunctive := trivial

theorem Conjunctive.eval {c : Condition} (h : c.Conjunctive) (ρ : Criteria → Bool) :
    c.eval ρ = c.leaves.all ρ := by
  induction c with
  | leaf criteria => simp [Condition.eval, leaves]
  | and left right ihl ihr => rw [Condition.eval, leaves, List.all_append, ihl h.1, ihr h.2]
  | or left right _ _ => exact h.elim
  | not inner _ => exact h.elim

/-- A conjunction asks for all comparisons of its leaves. -/
theorem Conjunctive.holds_expr_iff {c : Condition} (h : c.Conjunctive) (s : JoinSet)
    (tuple : Tuple) : (c.expr schema root s).holds tuple = true ↔
      ∀ k ∈ c.comparisons schema root, (k.expr s).holds tuple = true := by
  rw [holds_expr, h.eval, List.all_eq_true]
  simp only [List.all_eq_true, comparisons, List.mem_flatMap]
  constructor
  · rintro hall k ⟨leaf, hleaf, hk⟩
    exact hall leaf hleaf k hk
  · exact fun hall leaf hleaf k hk => hall k ⟨leaf, hleaf, hk⟩

theorem forM_accept_leaves (conditions : List Condition) :
    conditions.forM (accept schema root)
      = (conditions.flatMap leaves).forM (Criteria.accept schema root) := by
  induction conditions with
  | nil => rfl
  | cons c conditions ih =>
    have hcons : (c :: conditions).forM (accept schema root)
        = (c.accept schema root).bind fun _ => conditions.forM (accept schema root) := rfl
    rw [hcons, ih, List.flatMap_cons]
    symm
    exact List.forM_append

theorem conjunctive_nestLeft (first : Criteria) (rest : List Criteria) :
    (nestLeft first rest).Conjunctive ∧ (nestLeft first rest).leaves = first :: rest := by
  induction rest using List.reverseRecOn with
  | nil => exact ⟨trivial, rfl⟩
  | append_singleton rest part ih =>
    rw [nestLeft, List.foldl_append]
    exact ⟨⟨ih.1, trivial⟩, congrArg (· ++ [part]) ih.2⟩

theorem conjunctive_nestRight (first : Criteria) (rest : List Criteria) :
    (nestRight first rest).Conjunctive ∧ (nestRight first rest).leaves = first :: rest := by
  induction rest generalizing first with
  | nil => exact ⟨trivial, rfl⟩
  | cons next rest ih => exact ⟨⟨trivial, (ih next).1⟩, congrArg (first :: ·) (ih next).2⟩

end Condition

/-! ### Searches of conjunctions -/

namespace Search

/-- The leaves of the conditions, then the criteria. -/
def parts (q : Search) : List Criteria := q.conditions.flatMap Condition.leaves ++ [q.criteria]

variable {q : Search}

theorem comparisons_eq (schema : Schema) (root : Entity) (q : Search) :
    q.comparisons schema root = (Criteria.concat q.parts).comparisons schema root := by
  rw [Criteria.comparisons_concat, parts, List.flatMap_append, List.flatMap_assoc,
    List.flatMap_singleton]
  rfl

theorem accept_eq (hf : ∀ leaf ∈ q.conditions.flatMap Condition.leaves, leaf.entries ≠ []) :
    q.accept schema root = ((Criteria.concat q.parts).resolve schema root).map fun _ => () := by
  rw [accept, Condition.forM_accept_leaves, Criteria.forM_accept hf, parts,
    Criteria.concat_append, Criteria.resolve_append, Criteria.concat_singleton]
  change (Except.map _ (Criteria.resolve schema root (.concat _)) >>= fun _ =>
    q.criteria.resolve schema root >>= fun _ => pure ()) = Except.map _
      (Criteria.resolve schema root (.concat _) >>= fun cs =>
        (q.criteria.resolve schema root).map (cs ++ ·))
  cases Criteria.resolve schema root (.concat (q.conditions.flatMap Condition.leaves)) with
  | error _ => rfl
  | ok cs => cases q.criteria.resolve schema root <;> rfl

/-- Conjunctions and criteria hold where all comparisons do. -/
theorem forall_exprs_iff (hc : ∀ c ∈ q.conditions, c.Conjunctive) (s : JoinSet) (tuple : Tuple) :
    (∀ e ∈ q.exprs schema root s, e.holds tuple = true) ↔
      ∀ k ∈ q.comparisons schema root, (k.expr s).holds tuple = true := by
  rw [exprs, comparisons, List.forall_mem_append, List.forall_mem_append, List.forall_mem_map,
    List.forall_mem_map]
  apply and_congr_left
  intro _
  simp only [List.mem_flatMap]
  constructor
  · rintro hall k ⟨c, hm, hk⟩
    exact ((hc c hm).holds_expr_iff s tuple).mp (hall c hm) k hk
  · intro hall c hm
    exact ((hc c hm).holds_expr_iff s tuple).mpr fun k hk => hall k ⟨c, hm, hk⟩

end Search

/-! ### What asking comes to -/

namespace Plan

/-- The same error, or plans with the same joins that select the same rows of every store. -/
def Equivalent : Except CriteriaError Plan → Except CriteriaError Plan → Prop
  | .error a, .error b => a = b
  | .ok p, .ok q => p.root = q.root ∧ p.joins = q.joins ∧
    ∀ s : Store, s.positions p = s.positions q ∧ s.execute p = s.execute q
  | _, _ => False

/-- The first error of the criteria; or a plan that has taken all their hops, and whose clauses
say what the clauses did and that every comparison holds. -/
def Adds (schema : Schema) (p : Plan) (c : Criteria) (result : Except CriteriaError Plan) : Prop :=
  match c.resolve schema p.root with
  | .error e => result = .error e
  | .ok cs => ∃ q, result = .ok q ∧ q.root = p.root ∧ q.joins = p.joins.takeHops (allHops cs) ∧
    ∀ tuple, (∀ e ∈ q.filters, e.holds tuple = true) ↔
      (∀ e ∈ p.filters, e.holds tuple = true) ∧ ∀ k ∈ cs, (k.expr q.joins).holds tuple = true

variable {p q : Plan} {c : Criteria} {parts : List Criteria} {x y : Except CriteriaError Plan}

theorem Adds.equivalent (hx : p.Adds schema c x) (hy : p.Adds schema c y) : Equivalent x y := by
  rw [Adds] at hx hy
  cases hc : c.resolve schema p.root with
  | error e =>
    rw [hc] at hx hy
    subst hx hy
    exact rfl
  | ok cs =>
    rw [hc] at hx hy
    obtain ⟨q, rfl, hroot, hjoins, hclauses⟩ := hx
    obtain ⟨r, rfl, hroot', hjoins', hclauses'⟩ := hy
    have hr := hroot.trans hroot'.symm
    have hj := hjoins.trans hjoins'.symm
    have hc : ∀ tuple, (∀ e ∈ q.filters, e.holds tuple = true) ↔
        ∀ e ∈ r.filters, e.holds tuple = true := by
      intro tuple
      rw [hclauses, hclauses', hj]
    exact ⟨hr, hj, fun s => ⟨Store.positions_congr hr hj hc s, Store.execute_congr hr hj hc s⟩⟩

/-- What is asked for second is added to the plan that comes of the first. -/
theorem Adds.append {a b : List (String × Value)} {f : Plan → Except CriteriaError Plan}
    (hx : p.Adds schema ⟨a⟩ x) (hf : ∀ q, x = .ok q → q.Adds schema ⟨b⟩ (f q)) :
    p.Adds schema ⟨a ++ b⟩ (x >>= f) := by
  rw [Adds] at hx
  rw [Adds, Criteria.resolve_append]
  cases ha : Criteria.resolve schema p.root ⟨a⟩ with
  | error e =>
    rw [ha] at hx
    subst hx
    rfl
  | ok cs =>
    rw [ha] at hx
    obtain ⟨q, rfl, hroot, hjoins, hclauses⟩ := hx
    have hy := hf q rfl
    rw [Adds, hroot] at hy
    change match (Criteria.resolve schema p.root ⟨b⟩).map (cs ++ ·) with
      | .error e => f q = .error e
      | .ok cs => ∃ r, f q = .ok r ∧ _
    cases hb : Criteria.resolve schema p.root ⟨b⟩ with
    | error e =>
      rw [hb] at hy
      exact hy
    | ok ds =>
      rw [hb] at hy
      obtain ⟨r, hr, hroot', hjoins', hclauses'⟩ := hy
      refine ⟨r, hr, hroot', ?_, fun tuple => ?_⟩
      · rw [hjoins', hjoins, JoinSet.takeHops_allHops_append]
      · -- the slots of the first comparisons stay where they are
        have hcovers : q.joins.Covers cs := hjoins ▸ JoinSet.covers_takeHops p.joins cs
        have hp : q.joins.joins <+: r.joins.joins := hjoins' ▸ JoinSet.prefix_takeHops _ _
        have hstable : (∀ k ∈ cs, (k.expr r.joins).holds tuple = true) ↔
            ∀ k ∈ cs, (k.expr q.joins).holds tuple = true :=
          forall₂_congr fun k hk => by rw [k.expr_stable hp (hcovers.reaches hk)]
        rw [hclauses', hclauses, List.forall_mem_append, hstable, and_assoc]

/-- A search whose conditions are conjunctions adds their leaves and then its criteria. -/
theorem adds_search (schema : Schema) (search : Search)
    (hc : ∀ q ∈ search.conditions, q.Conjunctive)
    (hf : ∀ leaf ∈ search.conditions.flatMap Condition.leaves, leaf.entries ≠ []) (p : Plan) :
    p.Adds schema (.concat search.parts) (p.refine schema (.search search)) := by
  have hcomparisons := search.comparisons_eq schema p.root
  rw [Adds, refine_search, Search.accept_eq hf]
  cases hr : (Criteria.concat search.parts).resolve schema p.root with
  | error _ => rfl
  | ok cs =>
    rw [Criteria.comparisons_of_resolve hr] at hcomparisons
    refine ⟨_, rfl, rfl, by rw [hcomparisons], fun tuple => ?_⟩
    rw [List.forall_mem_append, Search.forall_exprs_iff hc, hcomparisons]

theorem adds_criteria (schema : Schema) (c : Criteria) (p : Plan) :
    p.Adds schema c (p.refine schema (.criteria c)) := by
  have h := adds_search schema ⟨[], c⟩ (by simp) (by simp) p
  rwa [refine_search_criteria, Search.parts, List.flatMap_nil, List.nil_append,
    Criteria.concat_singleton] at h

theorem adds_condition (schema : Schema) {tree : Condition} (hc : tree.Conjunctive)
    (hf : ∀ leaf ∈ tree.leaves, leaf.entries ≠ []) (p : Plan) :
    p.Adds schema (.concat tree.leaves) (p.refine schema (.condition tree)) := by
  have h := adds_search schema ⟨[tree], ∅⟩ (by simpa using hc) (by simpa using hf) p
  have hparts : Criteria.concat (Search.parts ⟨[tree], ∅⟩) = .concat tree.leaves := by
    rw [Search.parts, List.flatMap_singleton, Criteria.concat_append]
    exact congrArg Criteria.mk (List.append_nil _)
  rwa [refine_search_condition, hparts] at h

/-- Parts that come one after another add their entries together. -/
theorem adds_each (schema : Schema) (parts : List Criteria) (p : Plan) :
    p.Adds schema (.concat parts) (p.refineAll schema (parts.map .criteria)) := by
  induction parts generalizing p with
  | nil => exact ⟨p, rfl, rfl, rfl, fun tuple => by simp⟩
  | cons part parts ih => exact (adds_criteria schema part p).append fun q _ => ih q

theorem refineAll_singleton (p : Plan) (step : Refinement) :
    p.refineAll schema [step] = p.refine schema step := by
  rw [refineAll, List.foldlM_cons]
  cases p.refine schema step <;> rfl

end Plan

/-! ### Routes -/

/-- The ways of asking a plan for criteria that are cut into parts: all entries at once or as a
leaf, the parts as a tree of conjunctions or one after another, and a search that has some of
the parts as conditions. -/
inductive Criteria.Route (c : Criteria) (parts : List Criteria) : List Refinement → Prop
  | whole : Route c parts [.criteria c]
  | leaf : Route c parts [.condition (.leaf c)]
  | tree {tree : Condition} (h : tree.Conjunctive) (hl : tree.leaves = parts) :
    Route c parts [.condition tree]
  | each : Route c parts (parts.map .criteria)
  | search (j : ℕ) : Route c parts
    [.search ⟨(parts.take j).map .leaf, .concat (parts.drop j)⟩]

theorem Criteria.Route.adds {c : Criteria} {parts : List Criteria} {steps : List Refinement}
    (hc : c.Cut parts) (hn : c.entries ≠ []) (h : c.Route parts steps) (p : Plan) :
    p.Adds schema c (p.refineAll schema steps) := by
  obtain ⟨rfl, hf⟩ := hc
  cases h with
  | whole =>
    rw [Plan.refineAll_singleton]
    exact Plan.adds_criteria schema _ p
  | leaf =>
    rw [Plan.refineAll_singleton]
    have hleaf : (Condition.leaf (concat parts)).leaves = [concat parts] := rfl
    have h := Plan.adds_condition schema (Condition.conjunctive_leaf (concat parts))
      (by simpa [hleaf]) p
    rwa [hleaf, concat_singleton] at h
  | tree htree hl =>
    rw [Plan.refineAll_singleton]
    subst hl
    exact Plan.adds_condition schema htree hf p
  | each => exact Plan.adds_each schema parts p
  | search j =>
    rw [Plan.refineAll_singleton]
    have hleaves : ((parts.take j).map Condition.leaf).flatMap Condition.leaves
        = parts.take j := by
      rw [List.flatMap_map]
      exact List.flatMap_singleton' _
    have hconjunctive : ∀ q ∈ (parts.take j).map Condition.leaf, q.Conjunctive := by
      intro q hq
      obtain ⟨part, -, rfl⟩ := List.mem_map.mp hq
      exact Condition.conjunctive_leaf part
    have hfilled : ∀ leaf ∈ ((parts.take j).map Condition.leaf).flatMap Condition.leaves,
        leaf.entries ≠ [] := by
      rw [hleaves]
      exact fun leaf hm => hf leaf (List.mem_of_mem_take hm)
    have h := Plan.adds_search schema ⟨(parts.take j).map .leaf, concat (parts.drop j)⟩
      hconjunctive hfilled p
    have hwhole : concat (parts.take j ++ [concat (parts.drop j)]) = concat parts := by
      rw [concat_append, concat_singleton, ← concat_append, List.take_append_drop]
    rwa [Search.parts, hleaves, hwhole] at h

namespace Plan

open Condition (nestLeft nestRight)

/-- All ways of asking for the conjunction of some entries agree, whatever parts the entries are
cut into: they fail with the same error, or they lead to the same joins and select the same rows
of every store. -/
theorem refineAll_equivalent {c first : Criteria} {rest : List Criteria}
    (hc : c.Cut (first :: rest)) (schema : Schema) (p : Plan) :
    (∀ a b, c.Route (first :: rest) a → c.Route (first :: rest) b →
      Equivalent (p.refineAll schema a) (p.refineAll schema b)) ∧
    c.Route (first :: rest) [.condition (nestLeft first rest)] ∧
    c.Route (first :: rest) [.condition (nestRight first rest)] := by
  have hn : c.entries ≠ [] := by
    obtain ⟨rfl, hf⟩ := hc
    exact List.append_ne_nil_of_left_ne_nil (hf first List.mem_cons_self) _
  obtain ⟨hleft, hleftLeaves⟩ := Condition.conjunctive_nestLeft first rest
  obtain ⟨hright, hrightLeaves⟩ := Condition.conjunctive_nestRight first rest
  exact ⟨fun a b ha hb => (ha.adds hc hn p).equivalent (hb.adds hc hn p),
    .tree hleft hleftLeaves, .tree hright hrightLeaves⟩

end Plan

namespace Specimen

/-- Of a bad category, as far as it goes, and not of this name. -/
def badOther : Criteria :=
  .ofList [("status__category__label__like", .text "b%"), ("name__not", .text "t1")]

/-- With a treatment of such a name under the same status. -/
def alongside : Criteria := .ofList [("status__treatments__name__like", .text "t%")]

def badAlongside : Criteria :=
  .ofList [("status__category__label__like", .text "b%"), ("name__not", .text "t1"),
    ("status__treatments__name__like", .text "t%")]

end Specimen

namespace Plan

open Condition (nestLeft nestRight)

open Specimen in
/-- The plan has joined the status before, for a negated condition. -/
theorem refineAll_equivalent_badAlongside :
    badAlongside.Cut [badOther, alongside] ∧
      ((∀ a b, badAlongside.Route [badOther, alongside] a →
          badAlongside.Route [badOther, alongside] b →
            Equivalent (settled.refineAll Specimen.schema a)
              (settled.refineAll Specimen.schema b)) ∧
        badAlongside.Route [badOther, alongside] [.condition (nestLeft badOther [alongside])] ∧
        badAlongside.Route [badOther, alongside] [.condition (nestRight badOther [alongside])]) ∧
      (settled.refine Specimen.schema (.criteria badAlongside)).toOption.map (fun q =>
        (q.joins.targets, ward.positions q)) = some ([status, category, treatment], [1]) := by
  have hc : badAlongside.Cut [badOther, alongside] :=
    ⟨by decide +kernel, by decide +kernel⟩
  exact ⟨hc, refineAll_equivalent hc Specimen.schema settled, by decide +kernel⟩

end Plan

end PathQuery
