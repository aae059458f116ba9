import PathQuery.Proofs.Narrowing
import PathQuery.Proofs.Tables

/-! Plans on a store that grows. A row goes in behind the rows that are there, so these keep
their places, and a tuple of stored rows that follows the joins still does. Clauses, also negated
ones, are asked of one tuple and never of all tuples over a root row, so a new row brings tuples
and takes none away: what a plan has selected it goes on selecting. -/

namespace PathQuery

namespace Store

/-- Every table holds the rows it held, in their places, and perhaps others behind them. -/
def Grows (s t : Store) : Prop := ∀ name, s.rows name <+: t.rows name

/-- A plan selects in the second store what it selects in the first, and finds the same rows
there. -/
structure Retains (s t : Store) (p : Plan) : Prop where
  positions : (s.positions p).Sublist (t.positions p)
  rows : ∀ i ∈ s.positions p, ∃ row, (s.rows p.root.name)[i]? = some row ∧
    (t.rows p.root.name)[i]? = some row
  execute : (s.execute p).Sublist (t.execute p)

variable {s t u : Store} {e root : Entity} {row : FieldMap} {name : String} {joins : List Join}
  {j : Join} {i k : ℕ} {tuple : Tuple} {p : Plan} {step : StoreStep} {steps : List StoreStep}

/-! ### Steps that add -/

theorem Grows.refl (s : Store) : s.Grows s := fun _ => List.prefix_rfl

theorem Grows.trans (h : s.Grows t) (h' : t.Grows u) : s.Grows u :=
  fun name => (h name).trans (h' name)

theorem grows_advance (s : Store) (h : ∀ name, step.empties name = false) :
    s.Grows (s.advance step) := by
  intro name
  rw [rows_advance, h name, if_neg Bool.false_ne_true]
  exact List.prefix_append _ _

theorem grows_foldl_advance (s : Store)
    (h : ∀ step ∈ steps, ∀ name, step.empties name = false) :
    s.Grows (steps.foldl advance s) := by
  induction steps generalizing s with
  | nil => exact .refl s
  | cons step steps ih =>
    obtain ⟨hstep, hrest⟩ := List.forall_mem_cons.mp h
    exact (grows_advance s hstep).trans (ih _ hrest)

theorem grows_of_insert (h : s.insert e row = .ok t) : s.Grows t := by
  obtain ⟨-, rfl⟩ := insert_eq_ok_iff.mp h
  exact grows_advance s fun _ => rfl

/-! ### Tuples over more rows -/

theorem Grows.getElem? (hg : s.Grows t) (h : (s.rows name)[i]? = some row) :
    (t.rows name)[i]? = some row := by
  obtain ⟨more, hmore⟩ := hg name
  rw [← hmore, List.getElem?_append_left (List.getElem?_eq_some_iff.mp h).1, h]

theorem Joined.mono (hg : s.Grows t) (h : s.Joined j k tuple) : t.Joined j k tuple := by
  obtain ⟨hearlier, source, target, hsource, htarget, hstored, hlinked⟩ := h
  exact ⟨hearlier, source, target, hsource, htarget, (hg _).subset hstored, hlinked⟩

theorem Follows.mono (hg : s.Grows t) (h : s.Follows root joins i tuple) :
    t.Follows root joins i tuple := by
  obtain ⟨row, hrow, hstart⟩ := h.start
  exact ⟨h.length, ⟨row, hg.getElem? hrow, hstart⟩, fun k j hk => (h.joined k j hk).mono hg⟩

/-- No clause looks at a row outside the tuple. -/
theorem Answers.mono (hg : s.Grows t) (h : s.Answers p i tuple) : t.Answers p i tuple :=
  ⟨h.toFollows.mono hg, h.clauses⟩

theorem Grows.retains (hg : s.Grows t) (p : Plan) : s.Retains t p := by
  have hpositions : (s.positions p).Sublist (t.positions p) := by
    apply positions_sublist_of_subset
    intro i hi
    obtain ⟨tuple, ht⟩ := mem_positions.mp hi
    exact mem_positions.mpr ⟨tuple, ht.mono hg⟩
  have hrows : ∀ i ∈ s.positions p, ∃ row, (s.rows p.root.name)[i]? = some row ∧
      (t.rows p.root.name)[i]? = some row := by
    intro i hi
    obtain ⟨row, hrow⟩ := Option.isSome_iff_exists.mp (isSome_of_mem_positions hi)
    exact ⟨row, hrow, hg.getElem? hrow⟩
  refine ⟨hpositions, hrows, ?_⟩
  have hexecute : s.execute p = (s.positions p).filterMap fun i => (t.rows p.root.name)[i]? := by
    apply List.filterMap_congr
    intro i hi
    obtain ⟨row, hs, ht⟩ := hrows i hi
    rw [hs, ht]
  rw [hexecute]
  exact hpositions.filterMap _

/-- After a row has gone in, whatever its entity, a plan selects all that it selected, at the same
places and with the same rows; and so it does after any further steps that empty no table. -/
theorem insert_retains (h : s.insert e row = .ok t) (p : Plan) :
    s.Retains t p ∧ ∀ steps : List StoreStep, (∀ step ∈ steps, ∀ name, step.empties name = false) →
      s.Retains (steps.foldl advance t) p := by
  have hg := grows_of_insert h
  exact ⟨hg.retains p, fun steps hs => (hg.trans (grows_foldl_advance t hs)).retains p⟩

end Store

namespace Specimen

/-- Treatments that do not have a bad status, and share it with another of this name. -/
def sharing : Plan := settled.advance schema shared

def newcomer : FieldMap :=
  .ofEntries [("id", .uint 7), ("name", .text "t1"), ("status_id", .int 3)]

end Specimen

namespace Store

open Specimen in
/-- The row that goes in is one more to select and one more to share a status with. -/
theorem insert_retains_newcomer :
    ∃ t, ward.insert treatment newcomer = .ok t ∧
      (ward.Retains t sharing ∧ ∀ steps : List StoreStep,
        (∀ step ∈ steps, ∀ name, step.empties name = false) →
          ward.Retains (steps.foldl advance t) sharing) ∧
      sharing.joins.targets = [status, treatment] ∧
      ward.positions sharing = [0] ∧ t.positions sharing = [0, 3] := by
  have hrun : (ward.insert treatment newcomer).toOption.map (fun t => t.positions sharing)
      = some [0, 3] := by decide +kernel
  obtain ⟨t, ht, hafter⟩ := Option.map_eq_some_iff.mp hrun
  have hinsert := toOption_eq_some.mp ht
  exact ⟨t, hinsert, insert_retains hinsert sharing, by decide +kernel, by decide +kernel, hafter⟩

end Store

end PathQuery
