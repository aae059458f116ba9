import PathQuery.Expr.Eval
import PathQuery.Plan
import PathQuery.Proofs.Hops
import PathQuery.Proofs.Outcome

/-! Compilation split in two. Resolving criteria gives comparisons and their hops, or an
error, without a look at any join set. The join set then takes the hops in order, and each
comparison reads the slot in which its last hop has landed. Since slots never move, the
expressions are the same in every later set. -/

namespace PathQuery

/-- What one entry of criteria asks: how an attribute compares with a value, in the root row
or in the row that the hops lead to. -/
structure Comparison where
  hops : List Hop
  entity : Entity
  field : String
  op : CompareOp
  value : Value

namespace Comparison

/-- The joined entity whose row is read; none for the root row. -/
def reached (c : Comparison) : Option Entity := PathQuery.reached none c.hops

def column (s : JoinSet) (c : Comparison) : Column := ⟨c.entity, c.field, s.slotAt c.reached⟩

def expr (s : JoinSet) (c : Comparison) : Expr := .compare (c.column s) c.op c.value

def ofEntry (schema : Schema) (root : Entity) (entry : String × Value) :
    Except CriteriaError Comparison := do
  let path ← Path.parse entry.1
  let hops ← route schema none root path.hops
  let kind ← (arrival root hops).comparable path.field
  checkOperand (arrival root hops) path.field kind path.op entry.2
  return ⟨hops, arrival root hops, path.field, path.op, entry.2⟩

/-- The hops of some comparisons in order. -/
def allHops (cs : List Comparison) : List Hop := cs.flatMap hops

end Comparison

open Comparison (allHops)

theorem outcome_compileEntry (schema : Schema) (root : Entity) (entry : String × Value)
    (s : JoinSet) :
    outcome (compileEntry schema root entry) s
      = (Comparison.ofEntry schema root entry).map fun c =>
        (c.expr (s.takeHops c.hops), s.takeHops c.hops) := by
  unfold compileEntry Comparison.ofEntry
  simp only [outcome_bind, outcome_liftExcept, outcome_pure]
  cases Path.parse entry.1 with
  | error _ => rfl
  | ok path =>
    have hwalk := Standing.outcome_walk schema path.hops
      (show (Standing.start root).slot = s.slotAt none from rfl)
    simp only [Except.map, Except.bind, bind, hwalk]
    simp only [Standing.start]
    cases route schema none root path.hops with
    | error _ => rfl
    | ok hops =>
      simp only
      cases (arrival root hops).comparable path.field with
      | error _ => rfl
      | ok kind =>
        simp only
        cases checkOperand (arrival root hops) path.field kind path.op entry.2 with
        | error _ => rfl
        | ok _ => rfl

theorem Comparison.expr_stable {s t : JoinSet} (c : Comparison) (hp : s.joins <+: t.joins)
    (h : s.Reaches c.reached) : c.expr t = c.expr s := by
  unfold expr column
  rw [JoinSet.slotAt_stable hp h]

namespace JoinSet

/-- Every hop of the comparisons leads to an entity that the set reaches. -/
def Covers (s : JoinSet) (cs : List Comparison) : Prop :=
  ∀ h ∈ allHops cs, s.contains h.target = true

variable {s t : JoinSet} {cs ds : List Comparison} {c : Comparison}

theorem covers_takeHops (s : JoinSet) (cs : List Comparison) :
    (s.takeHops (allHops cs)).Covers cs := fun _ hm => contains_takeHops s hm

theorem Covers.mono (hp : s.joins <+: t.joins) (h : s.Covers cs) : t.Covers cs :=
  fun g hg => contains_mono hp (h g hg)

theorem Covers.subset (h : s.Covers ds) (hsub : cs ⊆ ds) : s.Covers cs := by
  intro g hg
  obtain ⟨c, hc, hgc⟩ := List.mem_flatMap.mp hg
  exact h g (List.mem_flatMap.mpr ⟨c, hsub hc, hgc⟩)

theorem covers_append : s.Covers (cs ++ ds) ↔ s.Covers cs ∧ s.Covers ds := by
  simp only [Covers, allHops, List.flatMap_append, List.mem_append, or_imp, forall_and]

theorem Covers.reaches (h : s.Covers cs) (hc : c ∈ cs) : s.Reaches c.reached := by
  intro e he
  obtain ⟨hop, hm, rfl⟩ := mem_of_reached he
  exact h hop (List.mem_flatMap.mpr ⟨c, hc, hm⟩)

theorem takeHops_of_covers (h : s.Covers cs) : s.takeHops (allHops cs) = s :=
  takeHops_of_contains h

theorem takeHops_allHops_append (s : JoinSet) (cs ds : List Comparison) :
    s.takeHops (allHops (cs ++ ds)) = (s.takeHops (allHops cs)).takeHops (allHops ds) := by
  rw [allHops, List.flatMap_append, takeHops_append]
  rfl

/-- The expressions of covered comparisons are settled. -/
theorem Covers.map_expr (h : s.Covers cs) (hp : s.joins <+: t.joins) :
    cs.map (Comparison.expr t) = cs.map (Comparison.expr s) :=
  List.map_congr_left fun c hc => c.expr_stable hp (h.reaches hc)

end JoinSet

/-! ### Criteria -/

namespace Criteria

/-- The comparisons of criteria in the order of their entries. -/
def resolve (schema : Schema) (root : Entity) (c : Criteria) :
    Except CriteriaError (List Comparison) := c.entries.mapM (Comparison.ofEntry schema root)

/-- The comparisons that the entries ask for. -/
def comparisons (schema : Schema) (root : Entity) (c : Criteria) : List Comparison :=
  c.entries.filterMap fun entry => (Comparison.ofEntry schema root entry).toOption

theorem comparisons_of_resolve {schema : Schema} {root : Entity} {c : Criteria}
    {cs : List Comparison} (h : c.resolve schema root = .ok cs) :
    c.comparisons schema root = cs := filterMap_toOption_of_mapM h

theorem compile_eq (schema : Schema) (root : Entity) (s : JoinSet) (c : Criteria) :
    c.compile schema root s = (c.resolve schema root).map fun cs =>
      (cs.map (Comparison.expr (s.takeHops (allHops cs))), s.takeHops (allHops cs)) := by
  unfold compile compileM resolve
  rw [outcome_staged]
  generalize c.entries = entries
  induction entries generalizing s with
  | nil => rfl
  | cons entry entries ih =>
    rw [compileEntries, List.mapM_cons]
    simp only [outcome_bind, outcome_compileEntry, outcome_pure, ih]
    cases Comparison.ofEntry schema root entry with
    | error _ => rfl
    | ok c =>
      simp only [Except.map, bind, Except.bind]
      cases entries.mapM (Comparison.ofEntry schema root) with
      | error _ => rfl
      | ok cs =>
        have hhops : s.takeHops (allHops (c :: cs))
            = (s.takeHops c.hops).takeHops (allHops cs) := by
          rw [allHops, List.flatMap_cons, JoinSet.takeHops_append]
          rfl
        have hexpr := c.expr_stable
          (JoinSet.prefix_takeHops (s.takeHops c.hops) (allHops cs))
          (JoinSet.reaches_takeHops s c.hops)
        simp only [pure, Except.pure, hhops, List.map_cons, hexpr]

/-- What a leaf has to pass: every entry resolves, and there is one. -/
def accept (schema : Schema) (root : Entity) (c : Criteria) : Except CriteriaError Unit := do
  let cs ← c.resolve schema root
  if cs.isEmpty then throw .emptyCriteria

theorem accept_of_filled {schema : Schema} {root : Entity} {c : Criteria} (h : c.entries ≠ []) :
    c.accept schema root = (c.resolve schema root).map fun _ => () := by
  rw [accept]
  cases hr : c.resolve schema root with
  | error _ => rfl
  | ok cs =>
    have hlen := (mapM_eq_ok_iff.mp hr).length_eq
    cases cs with
    | nil => exact absurd (List.eq_nil_of_length_eq_zero hlen) h
    | cons _ _ => rfl

end Criteria

/-! ### Conditions -/

namespace Condition

/-- The truth of a condition from the truth of its leaves. -/
def eval (ρ : Criteria → Bool) : Condition → Bool
  | .leaf c => ρ c
  | .and left right => left.eval ρ && right.eval ρ
  | .or left right => left.eval ρ || right.eval ρ
  | .not inner => !inner.eval ρ

/-- The comparisons of the leaves from left to right. -/
def comparisons (schema : Schema) (root : Entity) (c : Condition) : List Comparison :=
  c.leaves.flatMap (Criteria.comparisons schema root)

def accept (schema : Schema) (root : Entity) (c : Condition) : Except CriteriaError Unit :=
  c.leaves.forM (Criteria.accept schema root)

/-- The expression of a condition whose entities are all reached. -/
def expr (schema : Schema) (root : Entity) (s : JoinSet) : Condition → Expr
  | .leaf c => (Expr.allOf ((c.comparisons schema root).map (Comparison.expr s))).getD (.and [])
  | .and left right => .and [left.expr schema root s, right.expr schema root s]
  | .or left right => .or [left.expr schema root s, right.expr schema root s]
  | .not inner => .not (inner.expr schema root s)

variable {schema : Schema} {root : Entity} {s t : JoinSet}

@[simp] theorem comparisons_leaf (c : Criteria) :
    comparisons schema root (.leaf c) = c.comparisons schema root := by simp [comparisons, leaves]

@[simp] theorem comparisons_and (left right : Condition) :
    comparisons schema root (.and left right)
      = left.comparisons schema root ++ right.comparisons schema root := List.flatMap_append

@[simp] theorem comparisons_or (left right : Condition) :
    comparisons schema root (.or left right)
      = left.comparisons schema root ++ right.comparisons schema root := List.flatMap_append

theorem expr_stable {c : Condition} (h : s.Covers (c.comparisons schema root))
    (hp : s.joins <+: t.joins) : c.expr schema root t = c.expr schema root s := by
  induction c with
  | leaf criteria =>
    rw [comparisons_leaf] at h
    rw [expr, expr, h.map_expr hp]
  | and left right ihl ihr =>
    rw [comparisons_and, JoinSet.covers_append] at h
    rw [expr, expr, ihl h.1, ihr h.2]
  | or left right ihl ihr =>
    rw [comparisons_or, JoinSet.covers_append] at h
    rw [expr, expr, ihl h.1, ihr h.2]
  | not inner ih => rw [expr, expr, ih h]

/-- A condition holds where it is true of the leaves that hold. -/
theorem holds_expr (c : Condition) (tuple : Tuple) :
    (c.expr schema root s).holds tuple = c.eval fun leaf =>
      (leaf.comparisons schema root).all fun k => (k.expr s).holds tuple := by
  induction c with
  | leaf criteria =>
    rw [expr, eval]
    have h := Expr.all_allOf tuple ((criteria.comparisons schema root).map (Comparison.expr s))
    rw [List.all_map] at h
    cases ha : Expr.allOf ((criteria.comparisons schema root).map (Comparison.expr s)) with
    | none =>
      rw [ha] at h
      simpa [Function.comp_def] using h
    | some e =>
      rw [ha] at h
      simpa [Function.comp_def] using h
  | and left right ihl ihr => simp [expr, eval, ihl, ihr]
  | or left right ihl ihr => simp [expr, eval, ihl, ihr]
  | not inner ih => simp [expr, eval, ih]

/-- The branches of a conjunction or a disjunction, one after the other. -/
theorem outcome_branches {left right : Condition} (f : Expr → Expr → Expr)
    (hl : ∀ s, outcome (left.evaluate schema root) s = (left.accept schema root).map fun _ =>
      let k := s.takeHops (allHops (left.comparisons schema root))
      (left.expr schema root k, k))
    (hr : ∀ s, outcome (right.evaluate schema root) s = (right.accept schema root).map fun _ =>
      let k := s.takeHops (allHops (right.comparisons schema root))
      (right.expr schema root k, k)) (s : JoinSet) :
    outcome (do
      let l ← left.evaluate schema root
      let r ← right.evaluate schema root
      return f l r) s
      = ((left.leaves ++ right.leaves).forM (Criteria.accept schema root)).map fun _ =>
        let k := s.takeHops
          (allHops ((left.leaves ++ right.leaves).flatMap (Criteria.comparisons schema root)))
        (f (left.expr schema root k) (right.expr schema root k), k) := by
  have hhops : s.takeHops
      (allHops ((left.leaves ++ right.leaves).flatMap (Criteria.comparisons schema root)))
      = (s.takeHops (allHops (left.comparisons schema root))).takeHops
        (allHops (right.comparisons schema root)) := by
    rw [List.flatMap_append, JoinSet.takeHops_allHops_append]
    rfl
  have hexpr := expr_stable (JoinSet.covers_takeHops s (left.comparisons schema root))
    (JoinSet.prefix_takeHops (s.takeHops (allHops (left.comparisons schema root)))
      (allHops (right.comparisons schema root)))
  have hforM : (left.leaves ++ right.leaves).forM (Criteria.accept schema root)
      = (left.accept schema root).bind fun _ => right.accept schema root := List.forM_append
  rw [hforM]
  simp only [outcome_bind, outcome_pure, hl]
  cases left.accept schema root with
  | error _ => rfl
  | ok _ =>
    simp only [Except.map, Except.bind, hr]
    cases right.accept schema root with
    | error _ => rfl
    | ok _ => simp only [hhops, hexpr]

/-- Evaluating a condition accepts its leaves and takes their hops, from left to right. -/
theorem outcome_evaluate (schema : Schema) (root : Entity) (c : Condition) (s : JoinSet) :
    outcome (c.evaluate schema root) s = (c.accept schema root).map fun _ =>
      let k := s.takeHops (allHops (c.comparisons schema root))
      (c.expr schema root k, k) := by
  induction c generalizing s with
  | leaf criteria =>
    have haccept : accept schema root (.leaf criteria)
        = (criteria.accept schema root).bind fun _ => .ok () := List.forM_cons
    have hcompile : outcome (criteria.compileM schema root) s = criteria.compile schema root s :=
      rfl
    rw [evaluate, outcome_bind, hcompile, Criteria.compile_eq, haccept, comparisons_leaf,
      Criteria.accept]
    cases hr : criteria.resolve schema root with
    | error _ => rfl
    | ok cs =>
      simp only [expr, Criteria.comparisons_of_resolve hr]
      cases cs with
      | nil => rfl
      | cons c cs => cases cs <;> rfl
  | and left right ihl ihr => exact outcome_branches (fun l r => .and [l, r]) ihl ihr s
  | or left right ihl ihr => exact outcome_branches (fun l r => .or [l, r]) ihl ihr s
  | not inner ih =>
    have haccept : accept schema root (.not inner) = inner.accept schema root := rfl
    rw [evaluate, haccept]
    simp only [outcome_bind, outcome_pure, ih]
    cases inner.accept schema root <;> rfl

theorem compile_eq (schema : Schema) (root : Entity) (s : JoinSet) (c : Condition) :
    c.compile schema root s = (c.accept schema root).map fun _ =>
      let k := s.takeHops (allHops (c.comparisons schema root))
      (c.expr schema root k, k) := by
  rw [compile, compileM, outcome_staged, outcome_evaluate]

end Condition

/-! ### Searches -/

namespace Search

/-- The comparisons of the conditions in order, then those of the criteria. -/
def comparisons (schema : Schema) (root : Entity) (q : Search) : List Comparison :=
  q.conditions.flatMap (Condition.comparisons schema root) ++ q.criteria.comparisons schema root

/-- One clause for each condition and one for each entry of the criteria. -/
def exprs (schema : Schema) (root : Entity) (s : JoinSet) (q : Search) : List Expr :=
  q.conditions.map (Condition.expr schema root s) ++
    (q.criteria.comparisons schema root).map (Comparison.expr s)

/-- What a search has to pass: its conditions, then its criteria. -/
def accept (schema : Schema) (root : Entity) (q : Search) : Except CriteriaError Unit := do
  q.conditions.forM (Condition.accept schema root)
  let _ ← q.criteria.resolve schema root

end Search

theorem Condition.map_expr_stable {schema : Schema} {root : Entity} {s t : JoinSet}
    {cs : List Condition} (h : s.Covers (cs.flatMap (Condition.comparisons schema root)))
    (hp : s.joins <+: t.joins) :
    cs.map (Condition.expr schema root t) = cs.map (Condition.expr schema root s) := by
  apply List.map_congr_left
  intro c hc
  exact expr_stable (h.subset fun k hk => List.mem_flatMap.mpr ⟨c, hc, hk⟩) hp

theorem Search.exprs_stable {schema : Schema} {root : Entity} {s t : JoinSet} {q : Search}
    (h : s.Covers (q.comparisons schema root)) (hp : s.joins <+: t.joins) :
    q.exprs schema root t = q.exprs schema root s := by
  obtain ⟨hconditions, hcriteria⟩ := JoinSet.covers_append.mp h
  rw [exprs, exprs, Condition.map_expr_stable hconditions hp, hcriteria.map_expr hp]

namespace Plan

variable {schema : Schema} {p q : Plan}

theorem outcome_onJoins {α : Type} (x : Compiling α) (p : Plan) :
    outcome (onJoins x) p = (outcome x p.joins).map fun r => (r.1, { p with joins := r.2 }) := by
  unfold outcome onJoins
  cases x p.joins <;> rfl

theorem atomic_onJoins {α : Type} {x : Compiling α} (h : Atomic x) : Atomic (onJoins x) := by
  intro p e q hq
  unfold onJoins at hq
  cases hx : x p.joins with
  | ok a joins => rw [hx] at hq; cases hq
  | error e joins =>
    rw [hx] at hq
    cases hq
    rw [h p.joins e joins hx]

theorem outcome_grow {α : Type} (compile : Entity → Compiling α) (clauses : α → List Expr)
    (p : Plan) :
    outcome (grow compile clauses) p = (outcome (compile p.root) p.joins).map fun r =>
      ((), ⟨p.root, r.2, p.filters ++ clauses r.1⟩) := by
  change outcome (onJoins (compile p.root) >>= fun a =>
    modify fun p => { p with filters := p.filters ++ clauses a }) p = _
  rw [outcome_bind, outcome_onJoins]
  cases outcome (compile p.root) p.joins <;> rfl

theorem atomic_grow {α : Type} {compile : Entity → Compiling α} (clauses : α → List Expr)
    (h : ∀ root, Atomic (compile root)) : Atomic (grow compile clauses) := by
  intro p e q hq
  have hbind : Atomic (onJoins (compile p.root) >>= fun a =>
      modify fun p => { p with filters := p.filters ++ clauses a }) :=
    (atomic_onJoins (h p.root)).bind_of_total fun _ _ => ⟨_, _, rfl⟩
  exact hbind p e q hq

/-- A step that fails leaves the plan as it was. -/
theorem atomic_refineM (schema : Schema) (step : Refinement) : Atomic (refineM schema step) := by
  cases step with
  | condition c => exact atomic_grow _ fun root => atomic_staged (c.evaluate schema root)
  | criteria c => exact atomic_grow _ fun root => atomic_staged (compileEntries schema root _)
  | search s => exact atomic_staged _
  | clause e => intro p err q h; cases h

theorem advance_eq (schema : Schema) (p : Plan) (step : Refinement) :
    p.advance schema step = match p.refine schema step with
      | .ok q => q
      | .error _ => p := by
  rw [advance, (atomic_refineM schema step).stateAfter_eq, refine]
  cases outcome (refineM schema step) p <;> rfl

/-! ### What steps add -/

theorem refine_condition (schema : Schema) (p : Plan) (c : Condition) :
    p.refine schema (.condition c) = (c.compile schema p.root p.joins).map fun r =>
      ⟨p.root, r.2, p.filters ++ [r.1]⟩ := by
  rw [refine, refineM, applyM, outcome_grow, ← Condition.compile]
  cases c.compile schema p.root p.joins <;> rfl

theorem outcome_applyM (schema : Schema) (c : Condition) (p : Plan) :
    outcome (applyM schema c) p = (c.accept schema p.root).map fun _ =>
      let k := p.joins.takeHops (allHops (c.comparisons schema p.root))
      ((), ⟨p.root, k, p.filters ++ [c.expr schema p.root k]⟩) := by
  rw [applyM, outcome_grow, Condition.compileM, outcome_staged, Condition.outcome_evaluate]
  cases c.accept schema p.root <;> rfl

theorem outcome_applyCriteriaM (schema : Schema) (c : Criteria) (p : Plan) :
    outcome (applyCriteriaM schema c) p = (c.resolve schema p.root).map fun _ =>
      let k := p.joins.takeHops (allHops (c.comparisons schema p.root))
      ((), ⟨p.root, k, p.filters ++ (c.comparisons schema p.root).map (Comparison.expr k)⟩) := by
  rw [applyCriteriaM, outcome_grow, ← Criteria.compile, Criteria.compile_eq]
  cases hr : c.resolve schema p.root with
  | error _ => rfl
  | ok cs =>
    rw [Criteria.comparisons_of_resolve hr]
    rfl

theorem outcome_forM_applyM (schema : Schema) (cs : List Condition) (p : Plan) :
    outcome (cs.forM (applyM schema)) p
      = (cs.forM (Condition.accept schema p.root)).map fun _ =>
        let k := p.joins.takeHops (allHops (cs.flatMap (Condition.comparisons schema p.root)))
        ((), ⟨p.root, k, p.filters ++ cs.map (Condition.expr schema p.root k)⟩) := by
  induction cs generalizing p with
  | nil =>
    change Except.ok ((), p) = .ok ((), ⟨p.root, p.joins, p.filters ++ []⟩)
    rw [List.append_nil]
  | cons c cs ih =>
    have haccept : (c :: cs).forM (Condition.accept schema p.root)
        = (c.accept schema p.root).bind fun _ => cs.forM (Condition.accept schema p.root) :=
      List.forM_cons
    rw [List.forM, outcome_bind, outcome_applyM, haccept]
    cases c.accept schema p.root with
    | error _ => rfl
    | ok _ =>
      simp only [Except.map, Except.bind, ih]
      cases cs.forM (Condition.accept schema p.root) with
      | error _ => rfl
      | ok _ =>
        have hexpr := Condition.expr_stable
          (JoinSet.covers_takeHops p.joins (c.comparisons schema p.root))
          (JoinSet.prefix_takeHops _ (allHops (cs.flatMap (Condition.comparisons schema p.root))))
        simp only [List.flatMap_cons, JoinSet.takeHops_allHops_append, List.map_cons, hexpr,
          List.append_assoc, List.cons_append, List.nil_append]

/-- A search adds its clauses, and to the joins the hops of all its comparisons. -/
theorem refine_search (schema : Schema) (p : Plan) (search : Search) :
    p.refine schema (.search search) = (search.accept schema p.root).map fun _ =>
      let k := p.joins.takeHops (allHops (search.comparisons schema p.root))
      ⟨p.root, k, p.filters ++ search.exprs schema p.root k⟩ := by
  have haccept : search.accept schema p.root
      = (search.conditions.forM (Condition.accept schema p.root)).bind fun _ =>
        (search.criteria.resolve schema p.root).bind fun _ => .ok () := rfl
  rw [refine, refineM, applySearchM, outcome_staged, outcome_bind, outcome_forM_applyM, haccept]
  cases search.conditions.forM (Condition.accept schema p.root) with
  | error _ => rfl
  | ok _ =>
    simp only [Except.map, Except.bind, outcome_applyCriteriaM]
    cases search.criteria.resolve schema p.root with
    | error _ => rfl
    | ok _ =>
      have hexprs := Condition.map_expr_stable
        (JoinSet.covers_takeHops p.joins
          (search.conditions.flatMap (Condition.comparisons schema p.root)))
        (JoinSet.prefix_takeHops _ (allHops (search.criteria.comparisons schema p.root)))
      simp only [Search.comparisons, Search.exprs, JoinSet.takeHops_allHops_append, hexprs,
        List.append_assoc]

theorem refine_search_eq_ok {search : Search} (h : p.refine schema (.search search) = .ok q) :
    let k := p.joins.takeHops (allHops (search.comparisons schema p.root))
    q = ⟨p.root, k, p.filters ++ search.exprs schema p.root k⟩ := by
  rw [refine_search] at h
  obtain ⟨_, -, rfl⟩ := map_eq_ok.mp h
  rfl

end Plan

end PathQuery
