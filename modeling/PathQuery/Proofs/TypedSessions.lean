import Mathlib.Logic.Function.Basic
import PathQuery.Proofs.Bridging
import PathQuery.Proofs.Narrowing
import PathQuery.Proofs.Tables
import PathQuery.Specimen.Records

/-! Typed sessions. Records of several types go into one store, one at a time or many at once,
and some are refused: those that lack a part of their key, and those that repeat the key of a
record that went in before. When the documents of a type can be read back, the table of its
entity has just the rows of the accepted records, so every way of reading answers with records
that were accepted, in their order, and all ways agree on which these are. -/

namespace PathQuery

/-- Records are written as objects, with members in the order of their keys, and read back. -/
class LawfulRecord (α : Type) [Record α] : Prop where
  decode_encode : ∀ record : α, ∃ members, Record.encode record = some (.object members) ∧
    Entries.Sorted members ∧ Record.decode (.object members) = some record

/-! ### Records and rows -/

namespace Record

variable {α : Type} [Record α]

/-- The row of a record, when it has one. -/
def rowOf (record : α) : FieldMap := (toRow record).toOption.getD ∅

/-- The record has a whole key, and none of these has an equal one. -/
def Admits (records : List α) (record : α) : Prop :=
  (entity α).Keyed (rowOf record) ∧
    ∀ stored ∈ records, ¬ (entity α).SameKey (rowOf stored) (rowOf record)

instance (records : List α) (record : α) : Decidable (Admits records record) :=
  inferInstanceAs (Decidable (_ ∧ _))

/-- The records that go in behind others: those before the first that is not admitted. -/
def admitted (before : List α) : List α → List α
  | [] => []
  | record :: records =>
    if Admits before record then record :: admitted (before ++ [record]) records else []

variable [LawfulRecord α]

/-- The bridge from documents to values and back loses no member of an object. -/
theorem exists_row (record : α) : ∃ row, toRow record = .ok row ∧ ofRow row = .ok record := by
  obtain ⟨members, hencode, hsorted, hdecode⟩ := LawfulRecord.decode_encode record
  have hentries : Entries.Sorted (Json.toEntries members) := by
    rw [Json.toEntries_eq_map, Entries.sorted_map_snd]
    exact hsorted
  let row : FieldMap := ⟨Json.toEntries members, hentries⟩
  have hjson : row.toJson = .object members := (Json.object members).toJson_toValue
  refine ⟨row, ?_, ?_⟩
  · have hrow : FieldMap.ofEntries (Json.toEntries members) = row := row.ofEntries_entries
    simp only [toRow, hencode, Json.toValue, hrow]
  · simp only [ofRow, hjson, hdecode]

theorem toRow_eq (record : α) : toRow record = .ok (rowOf record) := by
  obtain ⟨row, hrow, -⟩ := exists_row record
  rw [rowOf, hrow]
  rfl

theorem ofRow_rowOf (record : α) : ofRow (rowOf record) = .ok record := by
  obtain ⟨row, hrow, hrecord⟩ := exists_row record
  rw [rowOf, hrow]
  exact hrecord

theorem mapM_ofRow (records : List α) : (records.map rowOf).mapM ofRow = .ok records := by
  induction records with
  | nil => rfl
  | cons record records ih =>
    rw [List.map_cons, List.mapM_cons, ofRow_rowOf, ih]
    rfl

end Record

open Record (rowOf Admits admitted)

/-! ### Writing -/

namespace Session

variable {α : Type} [Record α] {s t : Session} {before records : List α} {record : α}
  {name : String}

/-- The table of the record type has the rows of these records. -/
def Holds (s : Session) (records : List α) : Prop :=
  s.store.rows (Record.entity α).name = records.map rowOf

/-- The session with another store. -/
def withStore (s : Session) (store : Store) : Session := { s with store := store }

theorem insert_eq_ok_iff : s.insert record = .ok t ↔ ∃ row, Record.toRow record = .ok row ∧
    s.store.accepts (.insert (Record.entity α) row) = true ∧
      s.withStore (s.store.advance (.insert (Record.entity α) row)) = t := by
  unfold insert
  simp only [bind_eq_ok, Fault.ofRecord, Fault.ofStore, mapError_eq_ok, Store.insert_eq_ok_iff]
  constructor
  · rintro ⟨row, hrow, _, ⟨ha, rfl⟩, ht⟩
    cases ht
    exact ⟨row, hrow, ha, rfl⟩
  · rintro ⟨row, hrow, ha, rfl⟩
    exact ⟨row, hrow, _, ⟨ha, rfl⟩, rfl⟩

/-- A record goes into the table of its own type. -/
theorem rows_of_insert (h : s.insert record = .ok t) (hname : name ≠ (Record.entity α).name) :
    t.store.rows name = s.store.rows name := by
  obtain ⟨row, -, -, rfl⟩ := insert_eq_ok_iff.mp h
  rw [withStore, Store.rows_advance]
  simp [StoreStep.empties, StoreStep.row?, Ne.symm hname]

theorem rows_insertEach (s : Session) (records : List α) (n : ℕ)
    (hname : name ≠ (Record.entity α).name) :
    (s.insertEach records n).1.store.rows name = s.store.rows name := by
  induction records generalizing s n with
  | nil => rfl
  | cons record records ih =>
    rw [insertEach]
    cases hi : s.insert record with
    | error _ => rfl
    | ok t => exact (ih t (n + 1)).trans (rows_of_insert hi hname)

variable [LawfulRecord α]

/-- Which record goes in is told from the records that did. -/
theorem Holds.insert_eq_ok_iff (h : s.Holds before) : s.insert record = .ok t ↔
    Admits before record ∧
      s.withStore (s.store.advance (.insert (Record.entity α) (rowOf record))) = t := by
  have haccepts : s.store.accepts (.insert (Record.entity α) (rowOf record)) = true ↔
      Admits before record := by
    rw [Store.accepts_insert_iff, h, List.forall_mem_map, Admits]
  rw [Session.insert_eq_ok_iff, Record.toRow_eq]
  simp only [Except.ok.injEq, exists_eq_left', haccepts]

theorem Holds.of_insert (h : s.Holds before) (hi : s.insert record = .ok t) :
    t.Holds (before ++ [record]) := by
  obtain ⟨row, hrow, ha, rfl⟩ := Session.insert_eq_ok_iff.mp hi
  rw [Record.toRow_eq, Except.ok.injEq] at hrow
  subst hrow
  rw [Holds, withStore, Store.rows_advance, ha, h]
  simp [StoreStep.empties, StoreStep.row?]

/-- Of many records those go in that are admitted, and the call succeeds when these are all. -/
theorem Holds.insertEach (h : s.Holds before) (records : List α) (n : ℕ) :
    (s.insertEach records n).1.Holds (before ++ admitted before records) ∧
      ∀ m, (s.insertEach records n).2 = .ok m ↔
        admitted before records = records ∧ m = n + records.length := by
  induction records generalizing s before n with
  | nil =>
    refine ⟨?_, fun m => ?_⟩
    · rwa [admitted, List.append_nil]
    · simp [Session.insertEach, admitted, eq_comm]
  | cons record records ih =>
    rw [Session.insertEach, admitted]
    cases hi : s.insert record with
    | error fault =>
      have hno : ¬ Admits before record := by
        intro ha
        rw [h.insert_eq_ok_iff.mpr ⟨ha, rfl⟩] at hi
        cases hi
      rw [if_neg hno, List.append_nil]
      exact ⟨h, fun m => by simp⟩
    | ok t =>
      obtain ⟨hrest, hresult⟩ := ih (h.of_insert hi) (n + 1)
      rw [if_pos (h.insert_eq_ok_iff.mp hi).1]
      refine ⟨?_, fun m => ?_⟩
      · rwa [List.append_assoc] at hrest
      · rw [hresult, List.cons.injEq, and_iff_right rfl, List.length_cons, Nat.add_right_comm,
          Nat.add_assoc]

end Session

/-! ### Runs -/

/-- A call that stores records of one of several types. -/
inductive Call {ι : Type} (R : ι → Type)
  | insert (i : ι) (record : R i)
  | insertMany (i : ι) (records : List (R i))

namespace Call

variable {ι : Type} {R : ι → Type}

def index : Call R → ι
  | .insert i _ => i
  | .insertMany i _ => i

def records : (c : Call R) → List (R c.index)
  | .insert _ record => [record]
  | .insertMany _ records => records

variable [∀ i, Record (R i)]

/-- The session after a call, also one that fails. -/
def advance (s : Session) : Call R → Session
  | .insert _ record =>
    match s.insert record with
    | .ok t => t
    | .error _ => s
  | .insertMany _ records => (s.insertMany records).1

/-- A single record is like many that are one. -/
theorem advance_eq (s : Session) (c : Call R) : c.advance s = (s.insertEach c.records 0).1 := by
  cases c with
  | insert i record =>
    change advance s (.insert i record) = (s.insertEach [record] 0).1
    rw [advance, Session.insertEach]
    cases s.insert record <;> rfl
  | insertMany i records => rfl

/-- The records of each type that some calls bring in, in the order in which they go in. -/
def accepted [DecidableEq ι] (calls : List (Call R)) : (i : ι) → List (R i) :=
  calls.foldl (fun before c => Function.update before c.index
    (before c.index ++ admitted (before c.index) c.records)) fun _ => []

variable [DecidableEq ι]

theorem accepted_append_singleton (calls : List (Call R)) (c : Call R) :
    accepted (calls ++ [c]) = Function.update (accepted calls) c.index
      (accepted calls c.index ++ admitted (accepted calls c.index) c.records) := by
  rw [accepted, List.foldl_append, List.foldl_cons, List.foldl_nil, ← accepted]

/-- After a run the table of a type that shares its name with no other has the rows of the
accepted records. -/
theorem holds_run {s : Session} {i : ι} [LawfulRecord (R i)] (hs : s.Holds ([] : List (R i)))
    (hname : ∀ j, (Record.entity (R j)).name = (Record.entity (R i)).name → j = i)
    (calls : List (Call R)) : (calls.foldl advance s).Holds (accepted calls i) := by
  induction calls using List.reverseRecOn with
  | nil => exact hs
  | append_singleton calls c ih =>
    rw [List.foldl_append, List.foldl_cons, List.foldl_nil, advance_eq,
      accepted_append_singleton]
    by_cases hi : c.index = i
    · subst hi
      rw [Function.update_self]
      exact (ih.insertEach c.records 0).1
    · have hother : (Record.entity (R i)).name ≠ (Record.entity (R c.index)).name :=
        fun h => hi (hname _ h.symm)
      rw [Function.update_of_ne (Ne.symm hi), Session.Holds,
        Session.rows_insertEach _ _ _ hother]
      exact ih

end Call

/-! ### Reading -/

theorem Plan.build_empty (schema : Schema) (root : Entity) :
    Plan.build schema root ∅ = .ok (Plan.all root) := by
  rw [Plan.build, Plan.refine_search]
  rfl

theorem Store.execute_all (s : Store) (root : Entity) :
    s.execute (Plan.all root) = s.rows root.name := by
  rw [execute_of_no_joins rfl]
  exact List.filter_eq_self.mpr fun _ _ => rfl

namespace Session

variable {α : Type} [Record α] {s : Session} {records found : List α} {search : Search}
  {q : Select α}

/-- The answers to a search when it is met by these records. -/
structure Finds (s : Session) (search : Search) (found : List α) : Prop where
  filter : (s.filter search : Report (List α)).result = .ok found
  count : (s.count α search).result = .ok found.length
  one : ∀ record : α, (s.get search).result = .ok record ↔ found = [record]
  none : found = [] →
    (s.get search : Report α).result = .error (.store (.notFound (Record.entity α).name))
  many : 2 ≤ found.length → (s.get search : Report α).result
    = .error (.store (.multipleResults (Record.entity α).name found.length))

theorem build_of_search (h : s.search α search = .ok q) :
    Plan.build s.schema (Record.entity α) search = .ok q.plan := by
  obtain ⟨p, hp, rfl⟩ := map_eq_ok.mp (mapError_eq_ok.mp h)
  exact hp

variable [LawfulRecord α]

theorem result_filter (h : s.search α search = .ok q)
    (hrows : s.store.execute q.plan = found.map rowOf) :
    (s.filter search : Report (List α)).result = .ok found := by
  have hfilter : (s.filter search : Report (List α)).result
      = Fault.ofRecord ((s.store.execute q.plan).mapM Record.ofRow) := by
    rw [filter, query, h]
    rfl
  rw [hfilter, hrows, Record.mapM_ofRow]
  rfl

/-- What getting comes to, by how many records there are to get. -/
theorem result_get (h : s.search α search = .ok q)
    (hrows : s.store.execute q.plan = found.map rowOf) :
    (s.get search : Report α).result = match found with
      | [] => .error (.store (.notFound (Record.entity α).name))
      | [record] => .ok record
      | records => .error (.store (.multipleResults (Record.entity α).name records.length)) := by
  have hroot : q.plan.root = Record.entity α := Plan.root_of_build (build_of_search h)
  have hget : (s.get search : Report α).result
      = (Fault.ofStore (Backend.single (Record.entity α) (found.map rowOf))).bind fun row =>
        Fault.ofRecord (Record.ofRow row) := by
    rw [← hrows, ← hroot, get, query, h]
    rfl
  rw [hget]
  match found with
  | [] => rfl
  | [record] =>
    change Fault.ofRecord (Record.ofRow (rowOf record)) = _
    rw [Record.ofRow_rowOf]
    rfl
  | first :: second :: rest =>
    change Except.error (Fault.store (.multipleResults (Record.entity α).name
      ((first :: second :: rest).map rowOf).length)) = _
    rw [List.length_map]

/-- All ways of reading go by the rows that the plan selects. -/
theorem finds_of_execute (h : s.search α search = .ok q)
    (hrows : s.store.execute q.plan = found.map rowOf) : s.Finds search found := by
  have hcount : (s.count α search).result = .ok (s.store.execute q.plan).length := by
    rw [count, query, h]
    rfl
  have hget := result_get h hrows
  refine ⟨result_filter h hrows, ?_, fun record => ?_, ?_, fun hmany => ?_⟩
  · rw [hcount, hrows, List.length_map]
  · rw [hget]
    match found with
    | [] => simp
    | [_] => simp
    | _ :: _ :: _ => simp
  · rintro rfl
    exact hget
  · match found, hmany with
    | _ :: _ :: _, _ => exact hget

/-- The empty search is met by all records, and any other by some of them. -/
theorem Holds.finds_all (h : s.Holds records) : s.Finds ∅ records := by
  have hsearch : s.search α ∅ = .ok ⟨Plan.all (Record.entity α)⟩ := by
    rw [Session.search, Plan.build_empty]
    rfl
  exact finds_of_execute hsearch ((s.store.execute_all _).trans h)

theorem Holds.exists_finds (h : s.Holds records) (hq : s.search α search = .ok q) :
    ∃ found, found.Sublist records ∧ s.Finds search found := by
  have hbuild := build_of_search hq
  have hextends : (Plan.all (Record.entity α)).Extends q.plan := Plan.extends_refine hbuild
  have hrows : (s.store.execute q.plan).Sublist (records.map rowOf) := by
    rw [← h, ← Store.execute_all]
    exact Store.execute_sublist (Plan.wellFormed_all s.schema _) hextends s.store
  obtain ⟨found, hfound, heq⟩ := List.sublist_map_iff.mp hrows
  exact ⟨found, hfound, finds_of_execute hq heq⟩

variable {ι : Type} [DecidableEq ι] {R : ι → Type} [∀ i, Record (R i)]

/-- After every run of calls from an empty store, a type of records that can be read back, and
that shares its name with no other, has exactly its accepted records: reading all answers with
them, a further call goes by their keys, and a search that compiles is met by some of them, in
their order, on which filtering, counting and getting agree. -/
theorem run_accepted (schema : Schema) (debug : Bool) (calls : List (Call R)) (i : ι)
    [LawfulRecord (R i)]
    (hname : ∀ j, (Record.entity (R j)).name = (Record.entity (R i)).name → j = i) :
    let s := calls.foldl Call.advance (⟨schema, ∅, debug⟩ : Session)
    let stored := Call.accepted calls i
    s.all.result = .ok stored ∧
      (s.count (R i) ∅).result = .ok stored.length ∧
      (∀ record : R i, (∃ t, s.insert record = .ok t) ↔ Admits stored record) ∧
      (∀ (records : List (R i)) (m : ℕ), (s.insertMany records).2.result = .ok m ↔
        admitted stored records = records ∧ m = records.length) ∧
      ∀ (search : Search) (q : Select (R i)), s.search (R i) search = .ok q →
        ∃ found : List (R i), found.Sublist stored ∧ s.Finds search found := by
  intro s stored
  have hempty : Holds ⟨schema, ∅, debug⟩ ([] : List (R i)) := rfl
  have hholds : s.Holds stored := Call.holds_run hempty hname calls
  refine ⟨hholds.finds_all.filter, hholds.finds_all.count, fun record => ?_, fun records m => ?_,
    fun search q hq => hholds.exists_finds hq⟩
  · simp only [hholds.insert_eq_ok_iff, exists_and_left, exists_eq', and_true]
  · have hmany := (hholds.insertEach records 0).2 m
    rwa [Nat.zero_add] at hmany

end Session

namespace Specimen

theorem nullable_reference (n : Option UInt64) :
    Json.nullable Json.uint64? (reference n) = some n := by
  cases n <;> rfl

instance : LawfulRecord Treatment where
  decode_encode record := by
    have hkeys : ["id", "name", "status_id"].Pairwise (· < ·) := by decide
    have hsorted : Entries.Sorted [("id", Json.ofUInt64 record.id), ("name", .text record.name),
        ("status_id", reference record.statusId)] := Entries.sorted_iff.mpr hkeys
    refine ⟨_, rfl, Entries.sorted_collect _, ?_⟩
    rw [Entries.collect_of_sorted hsorted]
    change (Json.nullable Json.uint64? (reference record.statusId)).bind _ = _
    rw [nullable_reference]
    rfl

/-- Treatments, and documents of any form, which need not come back. -/
inductive Kind
  | treatment
  | odd
  deriving DecidableEq

abbrev Kind.Records : Kind → Type
  | .treatment => Treatment
  | .odd => Odd

instance : ∀ kind : Kind, Record kind.Records
  | .treatment => inferInstanceAs (Record Treatment)
  | .odd => inferInstanceAs (Record Odd)

instance : LawfulRecord (Kind.Records .treatment) := inferInstanceAs (LawfulRecord Treatment)

/-- The third treatment repeats a number and the fourth is left behind it; the document has no
row, and the next treatment comes too late. -/
def admissions : List (Call Kind.Records) :=
  [.insertMany .treatment
      [⟨1, "t1", some 3⟩, ⟨2, "t2", none⟩, ⟨1, "t3", none⟩, ⟨4, "t4", none⟩],
    .insert .odd ⟨.null⟩, .insert .treatment ⟨2, "t5", none⟩,
    .insert .treatment ⟨5, "t6", some 3⟩]

def intake : Session := admissions.foldl Call.advance ⟨schema, ∅, false⟩

def inStatus : Search := ⟨[], .ofList [("status_id", .uint 3)]⟩

end Specimen

open Specimen in
/-- Two of the three accepted treatments have the status. -/
theorem Session.run_accepted_admissions :
    (∀ kind : Kind, (Record.entity kind.Records).name = treatment.name → kind = .treatment) ∧
      Call.accepted admissions .treatment
        = [⟨1, "t1", some 3⟩, ⟨2, "t2", none⟩, ⟨5, "t6", some 3⟩] ∧
      intake.all.result = .ok (Call.accepted admissions .treatment) ∧
      (intake.count Treatment ∅).result = .ok 3 ∧
      ¬ (∃ t, intake.insert (⟨5, "t7", none⟩ : Treatment) = .ok t) ∧
      ∃ (q : Select Treatment) (found : List Treatment), intake.search Treatment inStatus = .ok q ∧
        found.Sublist (Call.accepted admissions .treatment) ∧ found.length = 2 ∧
          intake.Finds inStatus found := by
  have hname : ∀ kind : Kind, (Record.entity kind.Records).name = treatment.name →
      kind = .treatment := by
    intro kind h
    cases kind with
    | treatment => rfl
    | odd => exact absurd h (by decide)
  have hcount : (intake.count Treatment inStatus).result = .ok 2 := by decide +kernel
  obtain ⟨hall, hsize, hinsert, -, hsearch⟩ :=
    run_accepted Specimen.schema false admissions Kind.treatment hname
  refine ⟨hname, by decide +kernel, hall, hsize, (hinsert _).not.mpr (by decide +kernel), ?_⟩
  cases hq : intake.search Treatment inStatus with
  | error _ => rw [Session.count, query, hq] at hcount; cases hcount
  | ok q =>
    obtain ⟨found, hfound, hfinds⟩ := hsearch inStatus q hq
    have hlength : found.length = 2 := Except.ok.inj (hfinds.count.symm.trans hcount)
    exact ⟨q, found, rfl, hfound, hlength, hfinds⟩

end PathQuery
