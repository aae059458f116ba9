import Mathlib.Data.List.DropRight
import Mathlib.Data.List.Induction
import Mathlib.Data.List.Pairwise
import Mathlib.Data.Set.Insert
import PathQuery.Proofs.Outcome
import PathQuery.Specimen.Entities
import PathQuery.Store.Basic
import PathQuery.Value.Identity

/-! Tables over whole runs. A run inserts rows, empties tables and clears the store, and some
of its inserts are refused. What is in a table then can be told from the run alone: the rows
that went in since the table was last emptied, in their order. When the entities of one name
agree on the primary key, the rows of a table have whole keys and no two have equal ones; an
insert is refused for one of these reasons only, and a refused one leaves no trace. -/

namespace PathQuery

/-! ### Keys -/

namespace Entity

/-- The row has a value for every attribute of the primary key, and none is null. -/
def Keyed (e : Entity) (row : FieldMap) : Prop :=
  ∀ name ∈ e.primaryKey, ∃ value, row.get? name = some value ∧ value.isNull = false

/-- The rows are equal in every attribute of the primary key. -/
def SameKey (e : Entity) (a b : FieldMap) : Prop :=
  ∀ name ∈ e.primaryKey, ∃ v w, a.get? name = some v ∧ b.get? name = some w ∧
    v.equal? w = some true

variable {e f : Entity} {a b row : FieldMap} {key keyA keyB : List Value}

instance (e : Entity) (a b : FieldMap) : Decidable (e.SameKey a b) :=
  decidable_of_iff
    (∀ name ∈ e.primaryKey,
      ((a.get? name).any fun v => (b.get? name).any fun w => v.equals w) = true)
    (by simp [SameKey, Option.any_eq_true, Value.equals])

instance (e : Entity) (row : FieldMap) : Decidable (e.Keyed row) :=
  decidable_of_iff
    (∀ name ∈ e.primaryKey, ((row.get? name).any fun value => !value.isNull) = true)
    (by simp [Keyed, Option.any_eq_true])

theorem SameKey.symm (h : e.SameKey a b) : e.SameKey b a := by
  intro name hname
  obtain ⟨v, w, hv, hw, heq⟩ := h name hname
  exact ⟨w, v, hw, hv, by rw [Value.equal?_comm, heq]⟩

/-- Only keyed rows have the key of another. -/
theorem SameKey.keyed (h : e.SameKey a b) : e.Keyed a := by
  intro name hname
  obtain ⟨v, w, hv, -, heq⟩ := h name hname
  exact ⟨v, hv, Value.isNull_of_equal? heq⟩

theorem keyed_congr (h : e.primaryKey = f.primaryKey) : e.Keyed row ↔ f.Keyed row := by
  rw [Keyed, Keyed, h]

theorem sameKey_congr (h : e.primaryKey = f.primaryKey) : e.SameKey a b ↔ f.SameKey a b := by
  rw [SameKey, SameKey, h]

theorem keyValues_cons_eq_ok {name : String} {names : List String} :
    e.keyValues row (name :: names) = .ok key ↔ ∃ value rest, row.get? name = some value ∧
      value.isNull = false ∧ e.keyValues row names = .ok rest ∧ value :: rest = key := by
  rw [keyValues]
  cases row.get? name with
  | none => simp
  | some value =>
    cases hn : value.isNull with
    | true => simp [hn]
    | false => simp [hn, map_eq_ok]

theorem exists_key_iff : (∃ key, e.key row = .ok key) ↔ e.Keyed row := by
  unfold key Keyed
  induction e.primaryKey with
  | nil => simp [keyValues]
  | cons name names ih =>
    simp only [keyValues_cons_eq_ok, List.forall_mem_cons, ← ih]
    constructor
    · rintro ⟨_, value, rest, hv, hn, hrest, -⟩
      exact ⟨⟨value, hv, hn⟩, rest, hrest⟩
    · rintro ⟨⟨value, hv, hn⟩, rest, hrest⟩
      exact ⟨_, value, rest, hv, hn, hrest, rfl⟩

theorem sameKey_iff (ha : e.key a = .ok keyA) (hb : e.key b = .ok keyB) :
    PathQuery.sameKey keyA keyB = true ↔ e.SameKey a b := by
  unfold key at ha hb
  unfold SameKey
  generalize e.primaryKey = names at ha hb
  induction names generalizing keyA keyB with
  | nil =>
    cases ha
    cases hb
    simp [PathQuery.sameKey]
  | cons name names ih =>
    obtain ⟨v, as, hv, -, has, rfl⟩ := keyValues_cons_eq_ok.mp ha
    obtain ⟨w, bs, hw, -, hbs, rfl⟩ := keyValues_cons_eq_ok.mp hb
    simp only [PathQuery.sameKey, Bool.and_eq_true, ih has hbs, List.forall_mem_cons, hv, hw,
      Option.some.injEq, exists_and_left, exists_eq_left', Value.equals, beq_iff_eq]

end Entity

/-! ### Single steps -/

inductive StoreStep
  | insert (entity : Entity) (row : FieldMap)
  | truncate (entity : Entity)
  | clear

namespace StoreStep

def runM : StoreStep → Storing Unit
  | .insert e row => Store.insertM e row
  | .truncate e => modify fun s => s.truncate e
  | .clear => modify fun s => s.clear

def entity? : StoreStep → Option Entity
  | .insert e _ => some e
  | .truncate e => some e
  | .clear => none

/-- The step empties the table of a name. -/
def empties (name : String) : StoreStep → Bool
  | .insert _ _ => false
  | .truncate e => e.name == name
  | .clear => true

/-- The row that the step brings into the table of a name. -/
def row? (name : String) : StoreStep → Option FieldMap
  | .insert e row => if e.name = name then some row else none
  | _ => none

end StoreStep

namespace Store

/-- The store after a step, also one that is refused. -/
def advance (s : Store) (step : StoreStep) : Store := stateAfter step.runM s

/-- The step is not refused. -/
def accepts (s : Store) (step : StoreStep) : Bool := (outcome step.runM s).isOk

variable {s : Store} {e f : Entity} {a b row : FieldMap} {step : StoreStep} {name : String}

theorem hasKey_iff {key : List Value} (hk : e.key row = .ok key) :
    s.hasKey e key = true ↔ ∃ stored ∈ s.rows e.name, e.SameKey stored row := by
  rw [hasKey, List.any_eq_true]
  apply exists_congr
  intro stored
  apply and_congr_right
  intro _
  cases hs : e.key stored with
  | error err =>
    have hno : ¬ e.Keyed stored := fun h => by
      obtain ⟨other, ho⟩ := Entity.exists_key_iff.mpr h
      rw [hs] at ho
      cases ho
    simpa using fun h => hno h.keyed
  | ok other => exact Entity.sameKey_iff hs hk

/-- An insert goes in when the row has its whole key and no stored row has an equal one. -/
theorem accepts_insert_iff : s.accepts (.insert e row) = true ↔
    e.Keyed row ∧ ∀ stored ∈ s.rows e.name, ¬ e.SameKey stored row := by
  rw [accepts, StoreStep.runM, outcome, insertM_apply, ← Entity.exists_key_iff]
  cases hk : e.key row with
  | error err => simp [Except.isOk, Except.toBool]
  | ok key =>
    have hkey := hasKey_iff (s := s) hk
    cases hs : s.hasKey e key with
    | true => simpa [hs, Except.isOk, Except.toBool] using hkey
    | false => simpa [hs, Except.isOk, Except.toBool] using hkey

/-- A refused insert leaves the store as it was. -/
theorem advance_of_refused (h : s.accepts (.insert e row) = false) :
    s.advance (.insert e row) = s := by
  rw [accepts, StoreStep.runM, outcome, insertM_apply] at h
  rw [advance, StoreStep.runM, stateAfter, insertM_apply]
  cases hk : e.key row with
  | error err => rfl
  | ok key =>
    cases hs : s.hasKey e key with
    | true => simp [hs]
    | false => simp [hk, hs, Except.isOk, Except.toBool] at h

/-- An insert that goes in leaves the store that the step leaves. -/
theorem insert_eq_ok_iff {t : Store} :
    s.insert e row = .ok t ↔ s.accepts (.insert e row) = true ∧ s.advance (.insert e row) = t := by
  rw [insert, accepts, advance, StoreStep.runM, outcome, stateAfter]
  cases insertM e row s <;> simp [Except.map, Except.isOk, Except.toBool]

/-- What a step does to a table: it empties it, or adds a row to it when it goes in. -/
theorem rows_advance (s : Store) (step : StoreStep) (name : String) :
    (s.advance step).rows name = if step.empties name then []
      else s.rows name ++ (if s.accepts step then step.row? name else none).toList := by
  cases step with
  | insert e row =>
    cases ha : s.accepts (.insert e row) with
    | false => simp [advance_of_refused ha, StoreStep.empties]
    | true =>
      obtain ⟨hkeyed, hnew⟩ := accepts_insert_iff.mp ha
      obtain ⟨key, hk⟩ := Entity.exists_key_iff.mpr hkeyed
      have hs : s.hasKey e key = false := by
        rw [Bool.eq_false_iff, ne_eq, hasKey_iff hk]
        rintro ⟨stored, hm, hsame⟩
        exact hnew stored hm hsame
      have hstep : s.advance (.insert e row) = (s.withTable e).append e row := by
        rw [advance, StoreStep.runM, stateAfter, insertM_apply, hk]
        simp [hs]
      rw [hstep, rows_append, rows_withTable]
      by_cases hname : name = e.name
      · simp [StoreStep.empties, StoreStep.row?, hname]
      · simp [StoreStep.empties, StoreStep.row?, hname, Ne.symm hname]
  | truncate e =>
    have hstep : s.advance (.truncate e) = s.truncate e := rfl
    rw [hstep, rows_truncate]
    by_cases hname : name = e.name
    · simp [StoreStep.empties, hname]
    · simp [StoreStep.empties, StoreStep.row?, hname, Ne.symm hname]
  | clear => rfl

/-- A step empties a table, leaves it alone or adds an accepted row to it. -/
theorem rows_advance_cases (s : Store) (step : StoreStep) (name : String) :
    (s.advance step).rows name = [] ∨ (s.advance step).rows name = s.rows name ∨
      ∃ e row, step = .insert e row ∧ e.name = name ∧ s.accepts (.insert e row) = true ∧
        (s.advance step).rows name = s.rows name ++ [row] := by
  rw [rows_advance]
  cases step.empties name with
  | true => exact .inl (if_pos rfl)
  | false =>
    rw [if_neg Bool.false_ne_true]
    cases hadd : (if s.accepts step then step.row? name else none) with
    | none => exact .inr (.inl (List.append_nil _))
    | some row =>
      -- the only step that adds a row is an insert, and it was accepted
      cases step with
      | insert e other =>
        simp only [StoreStep.row?, Option.ite_none_right_eq_some, Option.some.injEq] at hadd
        obtain ⟨ha, hname, rfl⟩ := hadd
        exact .inr (.inr ⟨e, other, rfl, hname, ha, rfl⟩)
      | truncate e => simp [StoreStep.row?] at hadd
      | clear => simp [StoreStep.row?] at hadd

/-- The rows of an entity have whole keys, and no two have equal ones. -/
structure KeysKept (s : Store) (e : Entity) : Prop where
  keyed : ∀ row ∈ s.rows e.name, e.Keyed row
  distinct : (s.rows e.name).Pairwise fun a b => ¬ e.SameKey a b

theorem keysKept_of_rows_eq_nil (h : s.rows e.name = []) : s.KeysKept e := by
  constructor
  · rw [h]
    exact fun _ hm => (by cases hm)
  · rw [h]
    exact List.Pairwise.nil

theorem KeysKept.eq_of_sameKey (hk : s.KeysKept e) (ha : a ∈ s.rows e.name)
    (hb : b ∈ s.rows e.name) (h : e.SameKey a b) : a = b := by
  by_contra hne
  have hsymm : Std.Symm fun a b => ¬ e.SameKey a b := ⟨fun _ _ hab hba => hab hba.symm⟩
  exact hk.distinct.forall ha hb hne h

/-- A step of entities that share the key keeps keys whole and apart. -/
theorem KeysKept.advance (h : s.KeysKept f)
    (hk : ∀ e ∈ step.entity?, e.name = f.name → e.primaryKey = f.primaryKey) :
    (s.advance step).KeysKept f := by
  rcases rows_advance_cases s step f.name with hrows | hrows | ⟨e, row, rfl, hname, ha, hrows⟩
  · exact keysKept_of_rows_eq_nil hrows
  · constructor
    · rw [hrows]
      exact h.keyed
    · rw [hrows]
      exact h.distinct
  · obtain ⟨hkeyed, hnew⟩ := accepts_insert_iff.mp ha
    have hkey := hk e rfl hname
    rw [Entity.keyed_congr hkey] at hkeyed
    simp only [Entity.sameKey_congr hkey, hname] at hnew
    constructor
    · rw [hrows, List.forall_mem_append, List.forall_mem_singleton]
      exact ⟨h.keyed, hkeyed⟩
    · rw [hrows, List.pairwise_append]
      exact ⟨h.distinct, List.pairwise_singleton _ _, by simpa using hnew⟩

/-! ### Runs -/

/-- The store after some steps from the empty one. -/
def run (steps : List StoreStep) : Store := steps.foldl advance ∅

/-- The steps of a run, each with whether it was accepted. -/
def log : Store → List StoreStep → List (StoreStep × Bool)
  | _, [] => []
  | s, step :: steps => (step, s.accepts step) :: log (s.advance step) steps

/-- The rows that went into the table of a name after the last step that emptied it. -/
def kept (name : String) (log : List (StoreStep × Bool)) : List FieldMap :=
  (log.rtakeWhile fun l => !l.1.empties name).filterMap fun l =>
    if l.2 then l.1.row? name else none

/-- The entities that the steps are about are among these. -/
def Among (models : Set Entity) (steps : List StoreStep) : Prop :=
  ∀ step ∈ steps, ∀ e ∈ step.entity?, e ∈ models

theorem run_append_singleton (steps : List StoreStep) (step : StoreStep) :
    run (steps ++ [step]) = (run steps).advance step := by
  rw [run, List.foldl_append, List.foldl_cons, List.foldl_nil, ← run]

theorem log_append_singleton (s : Store) (steps : List StoreStep) (step : StoreStep) :
    log s (steps ++ [step]) = log s steps ++ [(step, (steps.foldl advance s).accepts step)] := by
  induction steps generalizing s with
  | nil => rfl
  | cons first steps ih => rw [List.cons_append, log, ih, log, List.foldl_cons, List.cons_append]

theorem rows_run (steps : List StoreStep) (name : String) :
    (run steps).rows name = kept name (log ∅ steps) := by
  induction steps using List.reverseRecOn with
  | nil => rfl
  | append_singleton steps step ih =>
    rw [run_append_singleton, rows_advance, log_append_singleton, ← run, kept,
      List.rtakeWhile_concat, ih, kept]
    cases step.empties name with
    | true => rfl
    | false =>
      rw [if_neg Bool.false_ne_true, Bool.not_false, if_pos rfl, List.filterMap_append]
      congr 1

variable {models : Set Entity} {steps : List StoreStep}

theorem keysKept_run (hm : ∀ e ∈ models, ∀ f ∈ models, e.name = f.name →
      e.primaryKey = f.primaryKey) (hs : Among models steps) (hf : f ∈ models) :
    (run steps).KeysKept f := by
  induction steps using List.reverseRecOn with
  | nil => exact keysKept_of_rows_eq_nil rfl
  | append_singleton steps step ih =>
    rw [run_append_singleton]
    have hbefore : Among models steps := fun step h => hs step (List.mem_append_left _ h)
    apply (ih hbefore).advance
    exact fun e he => hm e (hs step (by simp) e he) f hf

/-- After every run of entities that agree on primary keys, each table holds the rows that went
in since it was last emptied, with whole keys and no two equal; an insert goes in when its row
keeps that, and changes nothing when it is refused. -/
theorem run_tables (hm : ∀ e ∈ models, ∀ f ∈ models, e.name = f.name →
      e.primaryKey = f.primaryKey) (hs : Among models steps) :
    (∀ name, (run steps).rows name = kept name (log ∅ steps)) ∧
      (∀ e ∈ models, (run steps).KeysKept e) ∧
      (∀ e row, (run steps).accepts (.insert e row) = true ↔
        e.Keyed row ∧ ∀ stored ∈ (run steps).rows e.name, ¬ e.SameKey stored row) ∧
      ∀ e row, (run steps).accepts (.insert e row) = false →
        (run steps).advance (.insert e row) = run steps :=
  ⟨rows_run steps, fun _ he => keysKept_run hm hs he, fun _ _ => accepts_insert_iff,
    fun _ _ => advance_of_refused⟩

end Store

namespace Specimen

open Attribute (scalar)

/-- Beds are told apart by ward and number. -/
def bed : Entity :=
  ⟨"specimen.Bed", "Bed", "bed", ["ward", "number"], [scalar "ward" .text, scalar "number" .int]⟩

def bedRow (ward : String) (number : Value) : FieldMap :=
  .ofEntries [("ward", .text ward), ("number", number)]

/-- Beds before and after a clearing of the ward; one comes again with its number as a double,
and one has none. -/
def moves : List StoreStep :=
  [.insert bed (bedRow "a" (.int 1)), .insert treatment (.ofEntries [("id", .uint 4)]),
    .truncate bed, .insert bed (bedRow "a" (.int 2)),
    .insert bed (bedRow "a" (.float (Binary64.ofInt 2))), .insert bed (bedRow "b" (.uint 2)),
    .insert bed (bedRow "c" .null)]

end Specimen

namespace Store

open Specimen in
/-- The bed that comes again and the one without a number are refused. -/
theorem run_tables_beds :
    (∀ e ∈ ({bed, treatment} : Set Entity), ∀ f ∈ ({bed, treatment} : Set Entity),
        e.name = f.name → e.primaryKey = f.primaryKey) ∧
      Among {bed, treatment} moves ∧
      ((∀ name, (run moves).rows name = kept name (log ∅ moves)) ∧
        (∀ e ∈ ({bed, treatment} : Set Entity), (run moves).KeysKept e) ∧
        (∀ e row, (run moves).accepts (.insert e row) = true ↔
          e.Keyed row ∧ ∀ stored ∈ (run moves).rows e.name, ¬ e.SameKey stored row) ∧
        ∀ e row, (run moves).accepts (.insert e row) = false →
          (run moves).advance (.insert e row) = run moves) ∧
      (log ∅ moves).map Prod.snd = [true, true, true, true, false, true, false] ∧
      (run moves).rows "Bed" = [bedRow "a" (.int 2), bedRow "b" (.uint 2)] := by
  have hm : ∀ e ∈ ({bed, treatment} : Set Entity), ∀ f ∈ ({bed, treatment} : Set Entity),
      e.name = f.name → e.primaryKey = f.primaryKey := by
    rintro e (rfl | rfl) f (rfl | rfl) <;> decide
  have hs : Among {bed, treatment} moves := by
    simp [Among, moves, StoreStep.entity?]
  exact ⟨hm, hs, run_tables hm hs, by decide +kernel, by decide +kernel⟩

end Store

end PathQuery
