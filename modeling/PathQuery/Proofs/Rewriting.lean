import PathQuery.Proofs.NestedLoop
import PathQuery.Proofs.Resolution
import PathQuery.Specimen.Entities
import PathQuery.Value.Identity

/-! Boolean rewriting of conditions. Compiling goes over the leaves from left to right, and a
leaf that comes again finds all it needs in the join set: only first occurrences decide the
error and the joins. The expression is then true of a tuple as the condition is true of its
leaves, whatever the comparisons are defined on. -/

namespace PathQuery

open Comparison (allHops)

instance : DecidableEq Criteria := fun a b =>
  decidable_of_iff (a.entries = b.entries) (by cases a; cases b; simp)

namespace Condition

/-- What a leaf does to the join set. -/
def takeLeaf (schema : Schema) (root : Entity) (s : JoinSet) (leaf : Criteria) :
    Except CriteriaError JoinSet :=
  (leaf.accept schema root).map fun _ => s.takeHops (allHops (leaf.comparisons schema root))

variable {schema : Schema} {root : Entity} {s t : JoinSet} {leaf : Criteria}

theorem takeLeaf_eq_ok (h : takeLeaf schema root s leaf = .ok t) :
    leaf.accept schema root = .ok () ∧
      t = s.takeHops (allHops (leaf.comparisons schema root)) := by
  obtain ⟨_, ha, rfl⟩ := map_eq_ok.mp h
  exact ⟨ha, rfl⟩

/-- The leaf was accepted and the set has all it needs. -/
def Taken (schema : Schema) (root : Entity) (s : JoinSet) (leaf : Criteria) : Prop :=
  leaf.accept schema root = .ok () ∧ s.Covers (leaf.comparisons schema root)

theorem foldlM_takeLeaf_eraseDups (schema : Schema) (root : Entity) (s : JoinSet)
    (leaves : List Criteria) :
    leaves.eraseDups.foldlM (takeLeaf schema root) s = leaves.foldlM (takeLeaf schema root) s := by
  apply foldlM_eraseDups (Taken schema root)
  · intro s leaf t h
    obtain ⟨ha, rfl⟩ := takeLeaf_eq_ok h
    exact ⟨ha, JoinSet.covers_takeHops s _⟩
  · rintro s leaf other t ⟨ha, hc⟩ h
    obtain ⟨-, rfl⟩ := takeLeaf_eq_ok h
    exact ⟨ha, hc.mono (JoinSet.prefix_takeHops s _)⟩
  · rintro s leaf ⟨ha, hc⟩
    rw [takeLeaf, ha, JoinSet.takeHops_of_covers hc]
    rfl

/-- Compiling runs over the leaves and then builds the expression in the set they leave. -/
theorem compileM_eq_foldlM (schema : Schema) (root : Entity) (c : Condition) (s : JoinSet) :
    c.compileM schema root s = match c.leaves.foldlM (takeLeaf schema root) s with
      | .ok k => .ok (c.expr schema root k) k
      | .error e => .error e s := by
  have h : ∀ (leaves : List Criteria) (s : JoinSet),
      leaves.foldlM (takeLeaf schema root) s
        = (leaves.forM (Criteria.accept schema root)).map fun _ =>
          s.takeHops (allHops (leaves.flatMap (Criteria.comparisons schema root))) := by
    intro leaves
    induction leaves with
    | nil => intro s; rfl
    | cons leaf leaves ih =>
      intro s
      have hcons : (leaf :: leaves).forM (Criteria.accept schema root)
          = (leaf.accept schema root).bind fun _ => leaves.forM (Criteria.accept schema root) := rfl
      rw [List.foldlM_cons, hcons, takeLeaf, List.flatMap_cons, JoinSet.takeHops_allHops_append]
      cases leaf.accept schema root with
      | error _ => rfl
      | ok _ => exact ih _
  rw [compileM, staged_apply, outcome_evaluate, h, accept, comparisons]
  cases c.leaves.forM (Criteria.accept schema root) <;> rfl

/-- The same error, or expressions of the same truth on every tuple; the same joins anyway. -/
def Agree : EStateM.Result CriteriaError JoinSet Expr →
    EStateM.Result CriteriaError JoinSet Expr → Prop
  | .error a s, .error b t => a = b ∧ s = t
  | .ok e s, .ok f t => s = t ∧ ∀ tuple, e.holds tuple = f.holds tuple
  | _, _ => False

variable {p q : Condition}

theorem agree_of_equivalent (hl : p.leaves.eraseDups = q.leaves.eraseDups)
    (he : ∀ ρ, p.eval ρ = q.eval ρ) (schema : Schema) (root : Entity) (s : JoinSet) :
    Agree (p.compileM schema root s) (q.compileM schema root s) := by
  have hrun : p.leaves.foldlM (takeLeaf schema root) s
      = q.leaves.foldlM (takeLeaf schema root) s := by
    rw [← foldlM_takeLeaf_eraseDups, hl, foldlM_takeLeaf_eraseDups]
  rw [compileM_eq_foldlM, compileM_eq_foldlM, hrun]
  cases q.leaves.foldlM (takeLeaf schema root) s with
  | error e => exact ⟨rfl, rfl⟩
  | ok k =>
    refine ⟨rfl, fun tuple => ?_⟩
    rw [holds_expr, holds_expr, he]

/-- Plans that take in conditions which agree return the same rows. -/
theorem execute_refine_of_agree {plan : Plan}
    (h : Agree (p.compileM schema plan.root plan.joins) (q.compileM schema plan.root plan.joins))
    (store : Store) :
    (plan.refine schema (.condition p)).map store.execute
      = (plan.refine schema (.condition q)).map store.execute := by
  rw [Plan.refine_condition, Plan.refine_condition, compile, compile, outcome, outcome]
  cases hp : p.compileM schema plan.root plan.joins with
  | error a s =>
    cases hq : q.compileM schema plan.root plan.joins with
    | error b t => rw [hp, hq] at h; exact congrArg Except.error h.1
    | ok f t => rw [hp, hq] at h; exact h.elim
  | ok e s =>
    cases hq : q.compileM schema plan.root plan.joins with
    | error b t => rw [hp, hq] at h; exact h.elim
    | ok f t =>
      rw [hp, hq] at h
      obtain ⟨hj, ht⟩ := h
      apply congrArg Except.ok
      refine Store.execute_congr ?_ hj (fun tuple => ?_) store
      · rfl
      · simp only [List.mem_append, List.mem_singleton, or_imp, forall_and, forall_eq, ht]

/-- Conditions over the same leaves that are equivalent as formulas compile alike, into any
join set, and refine every plan alike. -/
theorem compile_equivalent (hl : p.leaves.eraseDups = q.leaves.eraseDups)
    (he : ∀ ρ, p.eval ρ = q.eval ρ) (schema : Schema) (root : Entity) (s : JoinSet) :
    Agree (p.compileM schema root s) (q.compileM schema root s) ∧
      ∀ (plan : Plan) (store : Store),
        (plan.refine schema (.condition p)).map store.execute
          = (plan.refine schema (.condition q)).map store.execute :=
  ⟨agree_of_equivalent hl he schema root s, fun plan store =>
    execute_refine_of_agree (agree_of_equivalent hl he schema plan.root plan.joins) store⟩

end Condition

namespace Specimen

open Condition (and or leaf)

/-- Treatments that are fine, and named so or of a good category. -/
def factored : Condition :=
  and (leaf (.ofList [("status__name", .text "ok")]))
    (or (leaf (.ofList [("name__like", .text "t%")]))
      (leaf (.ofList [("status__category__label", .text "good")])))

def distributed : Condition :=
  or (and (leaf (.ofList [("status__name", .text "ok")]))
      (leaf (.ofList [("name__like", .text "t%")])))
    (and (leaf (.ofList [("status__name", .text "ok")]))
      (leaf (.ofList [("status__category__label", .text "good")])))

end Specimen

namespace Condition

open Specimen in
/-- Distribution repeats a leaf; the joins are two all the same. -/
theorem compile_equivalent_distributed :
    factored.leaves.eraseDups = distributed.leaves.eraseDups ∧
      (∀ ρ, factored.eval ρ = distributed.eval ρ) ∧
        (Agree (factored.compileM schema treatment ∅) (distributed.compileM schema treatment ∅) ∧
          ∀ (plan : Plan) (store : Store),
            (plan.refine schema (.condition factored)).map store.execute
              = (plan.refine schema (.condition distributed)).map store.execute) ∧
          ((factored.compile schema treatment ∅).map fun r => r.2.size).toOption = some 2 := by
  have hl : factored.leaves.eraseDups = distributed.leaves.eraseDups := by decide
  have he : ∀ ρ, factored.eval ρ = distributed.eval ρ :=
    fun ρ => Bool.and_or_distrib_left _ _ _
  exact ⟨hl, he, compile_equivalent hl he schema treatment ∅, by decide +kernel⟩

end Condition

end PathQuery
