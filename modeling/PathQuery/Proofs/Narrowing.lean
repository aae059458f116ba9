import PathQuery.Proofs.Meaning
import PathQuery.Proofs.Recompilation
import PathQuery.Session.Basic

/-! Refining against rows. A plan that has been refined runs over longer tuples, and its old
clauses, also negated ones, are asked of these. They read slots that their joins had filled
by then, so a long tuple cut off behind those slots answers the plan before: new joins can
take tuples away, but none of the old clauses comes to hold because of them. A refined plan
therefore selects some of the places that were selected before, in their order. -/

namespace PathQuery

/-- Tuples that agree on what an expression reads give it the same truth. -/
theorem Expr.holds_congr {e : Expr} {a b : Tuple}
    (h : ∀ column : Column, e.Reads column → column.read a = column.read b) :
    e.holds a = e.holds b := by
  induction e using Expr.induct with
  | compare column op value => rw [holds, holds, h column (.compare column op value)]
  | and parts ih =>
    have hparts : ∀ e ∈ parts, e.holds a = e.holds b :=
      fun e he => ih e he fun column hr => h column (.and he hr)
    rw [holds_and, holds_and, Bool.eq_iff_iff, List.all_eq_true, List.all_eq_true]
    exact forall₂_congr fun e he => by rw [hparts e he]
  | or parts ih =>
    have hparts : ∀ e ∈ parts, e.holds a = e.holds b :=
      fun e he => ih e he fun column hr => h column (.or he hr)
    rw [holds_or, holds_or, Bool.eq_iff_iff, List.any_eq_true, List.any_eq_true]
    exact exists_congr fun e => and_congr_right fun he => by rw [hparts e he]
  | not part ih => rw [holds_not, holds_not, ih fun column hr => h column (.not hr)]

theorem Column.read_take {column : Column} {n : ℕ} (tuple : Tuple) (h : column.slot < n) :
    column.read (tuple.take n) = column.read tuple := by
  rw [read, read, List.getElem?_take_of_lt h]

namespace Store

variable {s : Store} {root : Entity} {joins more : List Join} {i : ℕ} {tuple : Tuple}
  {schema : Schema} {p q : Plan}

/-- A tuple cut off behind some of the joins follows these. -/
theorem Follows.take (h : s.Follows root (joins ++ more) i tuple) :
    s.Follows root joins i (tuple.take (joins.length + 1)) := by
  have hread : ∀ slot, slot < joins.length + 1 →
      (tuple.take (joins.length + 1))[slot]? = tuple[slot]? :=
    fun _ hslot => List.getElem?_take_of_lt hslot
  constructor
  · rw [List.length_take, h.length, List.length_append]
    omega
  · obtain ⟨row, hrow, h0⟩ := h.start
    exact ⟨row, hrow, (hread 0 (Nat.succ_pos _)).trans h0⟩
  · intro k j hk
    have hlt : k < joins.length := (List.getElem?_eq_some_iff.mp hk).1
    have hlater : (joins ++ more)[k]? = some j := by rwa [List.getElem?_append_left hlt]
    obtain ⟨hearlier, source, target, hsource, htarget, hlinked⟩ := h.joined k j hlater
    refine ⟨hearlier, source, target, ?_, ?_, hlinked⟩
    · rw [hread _ (by omega), hsource]
    · rw [hread _ (by omega), htarget]

/-- The old clauses read inside the old joins, so cutting off the new rows keeps their truth. -/
theorem Answers.take (hp : p.WellFormed schema) (he : p.Extends q) (h : s.Answers q i tuple) :
    s.Answers p i (tuple.take (p.joins.size + 1)) := by
  obtain ⟨more, hmore⟩ := he.joins
  have hfollows : s.Follows p.root (p.joins.joins ++ more) i tuple := by
    rw [hmore, ← he.root]
    exact h.toFollows
  refine ⟨hfollows.take, fun e hmem => ?_⟩
  rw [← h.clauses e (he.filters.subset hmem)]
  apply Expr.holds_congr
  intro column hr
  apply column.read_take
  exact Nat.lt_succ_of_le (JoinSet.le_size_of_nameAt? (hp.columns e hmem column hr).1)

theorem positions_sublist (hp : p.WellFormed schema) (he : p.Extends q) (s : Store) :
    (s.positions q).Sublist (s.positions p) := by
  apply positions_sublist_of_subset
  intro i hi
  obtain ⟨tuple, ht⟩ := mem_positions.mp hi
  exact mem_positions.mpr ⟨_, ht.take hp he⟩

theorem execute_sublist (hp : p.WellFormed schema) (he : p.Extends q) (s : Store) :
    (s.execute q).Sublist (s.execute p) := by
  rw [execute, execute, he.root]
  exact (positions_sublist hp he s).filterMap _

end Store

namespace Plan

theorem extends_of_select {α : Type} {schema : Schema} {step : Refinement} {a b : Select α}
    (h : a.refine schema step = .ok b) : a.plan.Extends b.plan := by
  obtain ⟨q, hq, rfl⟩ := map_eq_ok.mp (mapError_eq_ok.mp h)
  exact extends_refine hq

/-- A plan that can be reached selects, once it is refined, some of the places it selected, in
their order: after one step, after any run of steps, and through selections. -/
theorem refine_narrows {schema : Schema} {root : Entity} {p : Plan}
    (h : p.Reachable schema root) (s : Store) :
    (∀ step q, p.refine schema step = .ok q →
      (s.positions q).Sublist (s.positions p) ∧ (s.execute q).Sublist (s.execute p)) ∧
    (∀ steps : List Refinement,
      let q := steps.foldl (Plan.advance schema) p
      (s.positions q).Sublist (s.positions p) ∧ (s.execute q).Sublist (s.execute p)) ∧
    ∀ (α : Type) (a b : Select α) step, a.plan = p → a.refine schema step = .ok b →
      (s.positions b.plan).Sublist (s.positions p) ∧ (s.execute b.plan).Sublist (s.execute p) := by
  have hp := h.wellFormed.1
  have hnarrows : ∀ q, p.Extends q →
      (s.positions q).Sublist (s.positions p) ∧ (s.execute q).Sublist (s.execute p) :=
    fun q he => ⟨Store.positions_sublist hp he s, Store.execute_sublist hp he s⟩
  refine ⟨fun step q hq => ?_, fun steps => ?_, fun α a b step ha hb => ?_⟩
  · exact hnarrows q (extends_refine hq)
  · exact hnarrows _ (extends_foldl_advance schema p steps)
  · subst ha
    exact hnarrows b.plan (extends_of_select hb)

end Plan

namespace Specimen

open Condition (leaf)

/-- Treatments with a status that does not go by this name. -/
def settled : Plan :=
  (Plan.all treatment).advance schema
    (.condition (.not (leaf (.ofList [("status__name", .text "bad")]))))

/-- Those of this name whose status another treatment has. -/
def shared : Refinement :=
  .criteria (.ofList [("name", .text "t1"), ("status__treatments__name", .text "t2")])

end Specimen

open Specimen in
/-- The root entity is joined behind the status that the negated clause reads. -/
theorem Plan.refine_narrows_shared :
    ∃ q, settled.Reachable schema treatment ∧ settled.refine schema shared = .ok q ∧
      ((ward.positions q).Sublist (ward.positions settled) ∧
        (ward.execute q).Sublist (ward.execute settled)) ∧
      q.joins.targets = [status, treatment] ∧
      ward.positions settled = [0, 1] ∧ ward.positions q = [0] := by
  have hreach : settled.Reachable schema treatment :=
    Reachable.all.step _ fun _ h => (by cases h)
  have hrun : (settled.refine schema shared).toOption.map (fun q =>
      (q.joins.targets, ward.positions settled, ward.positions q))
      = some ([status, treatment], [0, 1], [0]) := by decide +kernel
  cases hq : settled.refine schema shared with
  | error _ => rw [hq] at hrun; cases hrun
  | ok q =>
    rw [hq] at hrun
    simp only [Except.toOption, Option.map_some, Option.some.injEq, Prod.mk.injEq] at hrun
    obtain ⟨htargets, hbefore, hafter⟩ := hrun
    have hnarrow := (refine_narrows hreach ward).1 shared q hq
    exact ⟨q, hreach, rfl, hnarrow, htargets, hbefore, hafter⟩

end PathQuery
