import PathQuery.Proofs.Attempts
import PathQuery.Proofs.WellFormed

/-! Compiling again. A join set grows at its end: by one join for each target that it does not
reach yet, in the order in which the hops come to them. What was compiled once therefore stays
as it is, whatever is compiled after it: its hops find their targets in the slots they had, and
no join is added. A plan that takes a step in once more selects the same rows. -/

namespace PathQuery

open Comparison (allHops)

/-! ### Joins that hops add -/

namespace JoinSet

/-- The targets of hops that a set does not reach, each where it comes first. -/
def newTargets (s : JoinSet) (hops : List Hop) : List Entity :=
  ((hops.map Hop.target).filter fun e => !s.contains e).eraseDupsBy Entity.is

variable {s t : JoinSet} {h : Hop} {hops : List Hop}

theorem newTargets_cons_of_contains (hc : s.contains h.target = true) :
    s.newTargets (h :: hops) = s.newTargets hops := by
  simp [newTargets, hc]

/-- Behind the first new target the set reaches that one as well. -/
theorem newTargets_cons_of_new (hc : s.contains h.target = false) :
    s.newTargets (h :: hops) = h.target :: (s.takeHop h).newTargets hops := by
  have hcontains : ∀ e, (!(s.takeHop h).contains e)
      = (decide (e.is h.target = false) && !s.contains e) := by
    intro e
    rw [Bool.eq_iff_iff, Bool.not_eq_true', ← Bool.not_eq_true, contains_takeHop_iff, Entity.is]
    simp [and_comm]
  simp only [newTargets, List.map_cons, List.filter_cons, hc, Bool.not_false, if_true,
    List.eraseDupsBy_cons, List.filter_filter, hcontains]

/-- Hops put a join after the others for each new target, in slots that count on. -/
theorem takeHops_adds (s : JoinSet) (hops : List Hop) :
    ∃ added, (s.takeHops hops).joins = s.joins ++ added ∧
      added.map Join.target = s.newTargets hops ∧
        added.map Join.slot = List.range' (s.size + 1) added.length := by
  induction hops generalizing s with
  | nil => exact ⟨[], (List.append_nil _).symm, rfl, rfl⟩
  | cons h hops ih =>
    rw [takeHops_cons]
    cases hc : s.contains h.target with
    | true =>
      rw [takeHop_of_contains hc, newTargets_cons_of_contains hc]
      exact ih s
    | false =>
      obtain ⟨added, hjoins, htargets, hslots⟩ := ih (s.takeHop h)
      have hsize : (s.takeHop h).size = s.size + 1 := by
        rw [size, joins_takeHop_of_new hc, List.length_append, List.length_singleton, size]
      rw [joins_takeHop_of_new hc, List.append_assoc] at hjoins
      refine ⟨_, hjoins, ?_, ?_⟩
      · rw [newTargets_cons_of_new hc, ← htargets]
        rfl
      · rw [hsize] at hslots
        rw [List.map_append, hslots, List.length_append, List.length_singleton, Nat.add_comm 1,
          List.range'_succ]
        rfl

end JoinSet

/-! ### Steps on a join set -/

namespace CompileStep

variable {schema : Schema} {x : CompileStep} {s t : JoinSet}

def comparisons (schema : Schema) : CompileStep → List Comparison
  | .criteria root c => c.comparisons schema root
  | .condition root c => c.comparisons schema root

/-- The hops of all paths of a step, in the order of the paths. -/
def hops (schema : Schema) (x : CompileStep) : List Hop := allHops (x.comparisons schema)

/-- What a step has to pass. -/
def accept (schema : Schema) : CompileStep → Except CriteriaError Unit
  | .criteria root c => (c.resolve schema root).map fun _ => ()
  | .condition root c => c.accept schema root

def exprs (schema : Schema) (s : JoinSet) : CompileStep → List Expr
  | .criteria root c => (c.comparisons schema root).map (Comparison.expr s)
  | .condition root c => [c.expr schema root s]

/-- The joins after a step, also one that fails. -/
def advance (schema : Schema) (s : JoinSet) (x : CompileStep) : JoinSet :=
  stateAfter (x.runM schema) s

theorem outcome_runM (schema : Schema) (x : CompileStep) (s : JoinSet) :
    outcome (x.runM schema) s = (x.accept schema).map fun _ =>
      let k := s.takeHops (x.hops schema)
      (x.exprs schema k, k) := by
  cases x with
  | criteria root c =>
    have hcompile : outcome ((CompileStep.criteria root c).runM schema) s
        = c.compile schema root s := rfl
    rw [hcompile, Criteria.compile_eq, accept]
    cases hr : c.resolve schema root with
    | error _ => rfl
    | ok cs =>
      simp only [hops, comparisons, exprs, Criteria.comparisons_of_resolve hr, Except.map]
  | condition root c =>
    have hcompile : outcome (c.compileM schema root) s = c.compile schema root s := rfl
    rw [runM, outcome_bind, hcompile, Condition.compile_eq, accept]
    cases c.accept schema root <;> rfl

theorem runM_of_accept (h : x.accept schema = .ok ()) (s : JoinSet) :
    x.runM schema s
      = .ok (x.exprs schema (s.takeHops (x.hops schema))) (s.takeHops (x.hops schema)) := by
  rw [(x.atomic_runM schema).apply_eq, outcome_runM, h]
  rfl

/-- A step that succeeds was accepted, and its hops and expressions are settled. -/
theorem runM_eq_ok {exprs : List Expr} (h : x.runM schema s = .ok exprs t) :
    x.accept schema = .ok () ∧ t = s.takeHops (x.hops schema) ∧ exprs = x.exprs schema t := by
  rw [(x.atomic_runM schema).apply_eq, outcome_runM] at h
  cases ha : x.accept schema with
  | error _ => rw [ha] at h; cases h
  | ok _ =>
    rw [ha] at h
    cases h
    exact ⟨rfl, rfl, rfl⟩

theorem prefix_advance (schema : Schema) (s : JoinSet) (x : CompileStep) :
    s.joins <+: (x.advance schema s).joins := by
  rw [advance, (x.atomic_runM schema).stateAfter_eq, outcome_runM]
  cases x.accept schema with
  | error _ => exact List.prefix_rfl
  | ok _ => exact JoinSet.prefix_takeHops s (x.hops schema)

theorem prefix_foldl_advance (schema : Schema) (s : JoinSet) (steps : List CompileStep) :
    s.joins <+: (steps.foldl (advance schema) s).joins := by
  induction steps generalizing s with
  | nil => exact List.prefix_rfl
  | cons x steps ih => exact (prefix_advance schema s x).trans (ih _)

theorem exprs_stable (h : s.Covers (x.comparisons schema)) (hp : s.joins <+: t.joins) :
    x.exprs schema t = x.exprs schema s := by
  cases x with
  | criteria root c => exact h.map_expr hp
  | condition root c => exact congrArg (fun e => [e]) (Condition.expr_stable h hp)

/-- What has compiled once compiles alike in every set that grows out of the one it left. -/
theorem runM_again {exprs : List Expr} (h : x.runM schema s = .ok exprs t)
    {u : JoinSet} (hp : t.joins <+: u.joins) : x.runM schema u = .ok exprs u := by
  obtain ⟨ha, rfl, rfl⟩ := runM_eq_ok h
  have hcovers := JoinSet.covers_takeHops s (x.comparisons schema)
  have hkeep : u.takeHops (x.hops schema) = u := JoinSet.takeHops_of_covers (hcovers.mono hp)
  rw [runM_of_accept ha, hkeep, exprs_stable hcovers hp]
  rfl

end CompileStep

/-! ### Steps on a plan -/

namespace Plan

/-- A plan with the same root, and with joins and clauses only added. -/
structure Extends (p q : Plan) : Prop where
  root : q.root = p.root
  joins : p.joins.joins <+: q.joins.joins
  filters : p.filters <+: q.filters

variable {schema : Schema} {p q r : Plan} {step : Refinement}

theorem Extends.refl (p : Plan) : p.Extends p := ⟨rfl, List.prefix_rfl, List.prefix_rfl⟩

theorem Extends.trans (h : p.Extends q) (h' : q.Extends r) : p.Extends r :=
  ⟨h'.root.trans h.root, h.joins.trans h'.joins, h.filters.trans h'.filters⟩

theorem extends_refine (h : p.refine schema step = .ok q) : p.Extends q := by
  by_cases hs : ∃ e, step = .clause e
  · obtain ⟨e, rfl⟩ := hs
    cases h
    exact ⟨rfl, List.prefix_rfl, List.prefix_append _ _⟩
  · obtain ⟨search, hsearch⟩ := exists_search (fun e he => hs ⟨e, he⟩) schema
    obtain rfl := refine_search_eq_ok ((hsearch p).symm.trans h)
    exact ⟨rfl, JoinSet.prefix_takeHops _ _, List.prefix_append _ _⟩

theorem extends_advance (schema : Schema) (p : Plan) (step : Refinement) :
    p.Extends (p.advance schema step) := by
  rw [advance_eq]
  cases h : p.refine schema step with
  | error _ => exact .refl p
  | ok q => exact extends_refine h

theorem extends_foldl_advance (schema : Schema) (p : Plan) (steps : List Refinement) :
    p.Extends (steps.foldl (advance schema) p) := by
  induction steps generalizing p with
  | nil => exact .refl p
  | cons step steps ih => exact (extends_advance schema p step).trans (ih _)

/-- Clauses that a plan has select nothing else when it has them twice. -/
theorem execute_append_of_subset {clauses : List Expr} (h : clauses ⊆ p.filters) (s : Store) :
    s.execute ⟨p.root, p.joins, p.filters ++ clauses⟩ = s.execute p := by
  apply Store.execute_congr
  · rfl
  · rfl
  · intro tuple
    constructor
    · exact fun hall e he => hall e (List.mem_append_left _ he)
    · intro hall e he
      rcases List.mem_append.mp he with he | he
      · exact hall e he
      · exact hall e (h he)

/-- A step that a plan has taken can be taken again at any later point, and the joins and the
selected rows stay as they are. -/
theorem refine_again (h : p.refine schema step = .ok q) (hr : q.Extends r) :
    ∃ again, r.refine schema step = .ok again ∧ again.joins = r.joins ∧
      ∀ s : Store, s.execute again = s.execute r := by
  by_cases hs : ∃ e, step = .clause e
  · obtain ⟨e, rfl⟩ := hs
    cases h
    have he : [e] ⊆ r.filters := fun _ hm => hr.filters.subset (List.mem_append_right _ hm)
    exact ⟨r.push e, rfl, rfl, execute_append_of_subset he⟩
  · obtain ⟨search, hsearch⟩ := exists_search (fun e he => hs ⟨e, he⟩) schema
    rw [hsearch, refine_search] at h
    obtain ⟨_, haccept, rfl⟩ := map_eq_ok.mp h
    have hcovers := JoinSet.covers_takeHops p.joins (search.comparisons schema p.root)
    have hroot : r.root = p.root := hr.root
    have hexprs := Search.exprs_stable hcovers hr.joins
    have hjoins : r.joins.takeHops (allHops (search.comparisons schema p.root)) = r.joins :=
      JoinSet.takeHops_of_covers (hcovers.mono hr.joins)
    refine ⟨⟨r.root, r.joins, r.filters ++ search.exprs schema p.root r.joins⟩, ?_, rfl, ?_⟩
    · rw [hsearch, refine_search, hroot, haccept, Except.map, hjoins]
    · apply execute_append_of_subset
      rw [hexprs]
      exact fun e he => hr.filters.subset (List.mem_append_right _ he)

end Plan

/-- A step that compiles puts the joins of its new targets behind those that are there, and
whatever is compiled after it, it compiles again to the same expressions and no join more; and
a plan that takes a step again selects what it selected before. -/
theorem compile_repeatable {schema : Schema} {x : CompileStep} {s t : JoinSet}
    {exprs : List Expr} (h : x.runM schema s = .ok exprs t) :
    (∃ added, t.joins = s.joins ++ added ∧ added.map Join.target = s.newTargets (x.hops schema) ∧
      added.map Join.slot = List.range' (s.size + 1) added.length) ∧
    (∀ steps : List CompileStep,
      let u := steps.foldl (CompileStep.advance schema) t
      x.runM schema u = .ok exprs u) ∧
    ∀ (p q : Plan) (step : Refinement) (steps : List Refinement),
      p.refine schema step = .ok q →
        let r := steps.foldl (Plan.advance schema) q
        ∃ again, r.refine schema step = .ok again ∧ again.joins = r.joins ∧
          ∀ store : Store, store.execute again = store.execute r := by
  refine ⟨?_, fun steps => ?_, fun p q step steps hstep => ?_⟩
  · obtain ⟨-, rfl, -⟩ := CompileStep.runM_eq_ok h
    exact JoinSet.takeHops_adds s (x.hops schema)
  · exact CompileStep.runM_again h (CompileStep.prefix_foldl_advance schema t steps)
  · exact Plan.refine_again hstep (Plan.extends_foldl_advance schema q steps)

namespace Specimen

open Condition (leaf)

/-- The joins of a search for statuses: the category comes first. -/
def categoryJoins : JoinSet :=
  CompileStep.advance schema ∅ (.criteria status (.ofList [("category__label", .text "good")]))

/-- Treatments with a status in a category with another status, or not among their own kind. -/
def detour : CompileStep :=
  .condition treatment
    (.or (leaf (.ofList [("status__category__statuses__name__like", .text "o%")]))
      (.not (leaf (.ofList [("status__treatments__name", .text "t1")]))))

end Specimen

open Specimen in
/-- The category keeps its slot, and the root entity comes to be joined last. -/
theorem compile_repeatable_detour :
    ∃ exprs t, detour.runM Specimen.schema categoryJoins = .ok exprs t ∧
      t.targets = [category, status, treatment] ∧
      (∃ added, t.joins = categoryJoins.joins ++ added ∧
        added.map Join.target = categoryJoins.newTargets (detour.hops Specimen.schema) ∧
        added.map Join.slot = List.range' (categoryJoins.size + 1) added.length) ∧
      ∀ steps : List CompileStep,
        let u := steps.foldl (CompileStep.advance Specimen.schema) t
        detour.runM Specimen.schema u = .ok exprs u := by
  have haccept : detour.accept Specimen.schema = .ok () := by decide +kernel
  have h := CompileStep.runM_of_accept haccept categoryJoins
  obtain ⟨hadded, hagain, -⟩ := compile_repeatable h
  exact ⟨_, _, h, by decide +kernel, hadded, hagain⟩

end PathQuery
