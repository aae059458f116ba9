import PathQuery.Proofs.Resolution
import PathQuery.Specimen.Entities

/-! Steps that fail among steps that succeed. Steps are attempted in order on one state, and a
failure does not stop the ones after it. When every step is atomic, a failed one hands on the
state it was given, so the others go as they would without it: the same results and the same
state in the end. All steps of plans and of join sets are atomic, although the compilation
below them takes in one hop after another before it fails. -/

namespace PathQuery

section

variable {ι ε σ α : Type} {f : ι → EStateM ε σ α} {s : σ} {step : ι} {steps : List ι}

/-- What comes of each step, and the state in the end. -/
def attempts (f : ι → EStateM ε σ α) : List ι → σ → List (Except ε α) × σ
  | [], s => ([], s)
  | step :: steps, s =>
    let (results, final) := attempts f steps (stateAfter (f step) s)
    ((outcome (f step) s).map (·.1) :: results, final)

/-- The steps that succeed when all are attempted. -/
def successes (f : ι → EStateM ε σ α) (steps : List ι) (s : σ) : List ι :=
  ((steps.zip (attempts f steps s).1).filter fun attempt => attempt.2.isOk).map (·.1)

theorem attempts_snd (f : ι → EStateM ε σ α) (steps : List ι) (s : σ) :
    (attempts f steps s).2 = steps.foldl (fun s step => stateAfter (f step) s) s := by
  induction steps generalizing s with
  | nil => rfl
  | cons step steps ih => exact ih _

/-- A step that succeeds stays and hands on its state. -/
theorem successes_cons_of_ok {a : α} {t : σ} (h : f step s = .ok a t) :
    successes f (step :: steps) s = step :: successes f steps t := by
  simp [successes, attempts, outcome, stateAfter, h, Except.map, Except.isOk, Except.toBool]

/-- An atomic step that fails is passed over. -/
theorem successes_cons_of_error {e : ε} {t : σ} (hf : Atomic (f step)) (h : f step s = .error e t) :
    successes f (step :: steps) s = successes f steps s := by
  obtain rfl := hf s e t h
  simp [successes, attempts, outcome, stateAfter, h, Except.map, Except.isOk, Except.toBool]

/-- The steps that succeed do the same without the others. -/
theorem attempts_successes (hf : ∀ step ∈ steps, Atomic (f step)) (s : σ) :
    attempts f (successes f steps s) s
      = ((attempts f steps s).1.filter Except.isOk, (attempts f steps s).2) := by
  induction steps generalizing s with
  | nil => rfl
  | cons step steps ih =>
    obtain ⟨hstep, hrest⟩ := List.forall_mem_cons.mp hf
    cases h : f step s with
    | ok a t =>
      rw [successes_cons_of_ok h, attempts, attempts]
      simp only [stateAfter, outcome, h, ih hrest]
      rfl
    | error e t =>
      rw [successes_cons_of_error hstep h, ih hrest, attempts]
      obtain rfl := hstep s e t h
      simp only [stateAfter, outcome, h]
      rfl

end

/-- A step on a join set. -/
inductive CompileStep
  | criteria (root : Entity) (criteria : Criteria)
  | condition (root : Entity) (condition : Condition)

namespace CompileStep

/-- The expressions of a step; a condition has one. -/
def runM (schema : Schema) : CompileStep → Compiling (List Expr)
  | .criteria root c => c.compileM schema root
  | .condition root c => do return [← c.compileM schema root]

theorem atomic_runM (schema : Schema) (step : CompileStep) : Atomic (step.runM schema) := by
  cases step with
  | criteria root c => exact atomic_staged (compileEntries schema root c.entries)
  | condition root c =>
    exact (atomic_staged (c.evaluate schema root)).bind_of_total fun e s => ⟨[e], s, rfl⟩

end CompileStep

/-- Steps on a plan, and steps that share a join set, do the same without those that fail: the
plan and the joins in the end are those of the steps that succeed, and each of these has the
result it had. -/
theorem failed_steps_invisible (schema : Schema) (plan : Plan) (refinements : List Refinement)
    (joins : JoinSet) (compilations : List CompileStep) :
    (attempts (Plan.refineM schema)
        (successes (Plan.refineM schema) refinements plan) plan
      = ((attempts (Plan.refineM schema) refinements plan).1.filter Except.isOk,
        refinements.foldl (Plan.advance schema) plan)) ∧
    attempts (CompileStep.runM schema)
        (successes (CompileStep.runM schema) compilations joins) joins
      = ((attempts (CompileStep.runM schema) compilations joins).1.filter Except.isOk,
        (attempts (CompileStep.runM schema) compilations joins).2) := by
  constructor
  · rw [attempts_successes fun step _ => Plan.atomic_refineM schema step, attempts_snd]
    rfl
  · exact attempts_successes (fun step _ => step.atomic_runM schema) joins

namespace Specimen

open Condition (leaf)

/-- The right branch fails after the left one. -/
def torn : Condition :=
  .and (leaf (.ofList [("status__name", .text "ok")])) (leaf (.ofList [("nowhere__id", .uint 1)]))

/-- The left branch has taken its join by then, in the copy that is dropped. -/
example : (stateAfter (torn.evaluate schema treatment) ∅).size = 1 ∧
    (stateAfter (torn.compileM schema treatment) ∅).size = 0 := by
  decide +kernel

end Specimen

end PathQuery
