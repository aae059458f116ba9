import PathQuery.Fault
import PathQuery.Graph.Dump
import PathQuery.Graph.Load

/-! Sessions: typed access to a store. A search is compiled against the entity of the record
type; what it selects can be counted or fetched, any number of times, and refined. Reading
answers with the lines a debugging session logs: each plan before it is run, and how many
rows came of it after. A request that fails before it runs logs nothing. -/

namespace PathQuery

structure Session where
  schema : Schema
  store : Store
  debug : Bool

/-- An answer with the lines logged on the way to it. -/
structure Report (α : Type) where
  log : List String
  result : Except Fault α

namespace Report

variable {α β : Type}

def fail (fault : Fault) : Report α := ⟨[], .error fault⟩

/-- Goes on from the answer, keeping the lines. -/
def andThen (r : Report α) (f : α → Except Fault β) : Report β := ⟨r.log, r.result.bind f⟩

end Report

/-- A compiled search for records of a type. -/
structure Select (α : Type) where
  plan : Plan

namespace Session

/-- The lines, when the session is debugging. -/
def lines (s : Session) (lines : List String) : List String := if s.debug then lines else []

def runRows (s : Session) (p : Plan) : Report (List FieldMap) :=
  let rows := s.store.execute p
  let sql := p.text
  let count := rows.length
  ⟨s.lines [s!"all: {sql}", s!"all: {count} rows"], .ok rows⟩

def runOne (s : Session) (p : Plan) : Report FieldMap :=
  let sql := p.text
  ⟨s.lines [s!"one: {sql}"], Fault.ofStore (Backend.single p.root (s.store.execute p))⟩

def runCount (s : Session) (p : Plan) : Report Nat :=
  let count := (s.store.execute p).length
  let sql := p.text
  ⟨s.lines [s!"count: {sql}", s!"count: {count}"], .ok count⟩

end Session

namespace Select

variable {α : Type}

/-- A narrower search; the one before it is not changed. -/
def refine (schema : Schema) (q : Select α) (step : Refinement) : Except Fault (Select α) :=
  Fault.ofCriteria ((q.plan.refine schema step).map Select.mk)

/-- The selected rows as they are stored. -/
def rows (q : Select α) (s : Session) : Report (List FieldMap) := s.runRows q.plan

def count (q : Select α) (s : Session) : Report Nat := s.runCount q.plan

variable [Record α]

def all (q : Select α) (s : Session) : Report (List α) :=
  (q.rows s).andThen fun rows => Fault.ofRecord (rows.mapM Record.ofRow)

def one (q : Select α) (s : Session) : Report α :=
  (s.runOne q.plan).andThen fun row => Fault.ofRecord (Record.ofRow row)

end Select

namespace Session

variable {α : Type} [Record α]

/-- Compiles a search for records of a type. -/
def search (s : Session) (α : Type) [Record α] (search : Search) : Except Fault (Select α) :=
  Fault.ofCriteria ((Plan.build s.schema (Record.entity α) search).map Select.mk)

/-- Compiles a search and reads what it selects. -/
def query {β : Type} (s : Session) (search : Search) (read : Select α → Session → Report β) :
    Report β :=
  match s.search α search with
  | .ok q => read q s
  | .error fault => .fail fault

def filter (s : Session) (search : Search) : Report (List α) := s.query search Select.all

def all (s : Session) : Report (List α) := s.filter ∅

/-- The only record that a search selects. -/
def get (s : Session) (search : Search) : Report α := s.query search Select.one

def count (s : Session) (α : Type) [Record α] (search : Search) : Report Nat :=
  s.query search (Select.count (α := α))

/-- Stores one record. -/
def insert (s : Session) (record : α) : Except Fault Session := do
  let row ← Fault.ofRecord (Record.toRow record)
  let store ← Fault.ofStore (s.store.insert (Record.entity α) row)
  return { s with store := store }

/-- Stores records up to the first that is refused; how many went in, or why one did not. -/
def insertEach (s : Session) : List α → Nat → Session × Except Fault Nat
  | [], count => (s, .ok count)
  | record :: records, count =>
    match s.insert record with
    | .ok next => next.insertEach records (count + 1)
    | .error fault => (s, .error fault)

def insertMany (s : Session) (records : List α) : Session × Report Nat :=
  let (next, result) := s.insertEach records 0
  let name := (Record.entity α).name
  let log := match result with
    | .ok count => s.lines [s!"inserted {count} {name} rows"]
    | .error _ => []
  (next, ⟨log, result⟩)

/-- The nested mapping of a record and what it is related to. -/
def dump (s : Session) (record : α) (depth : Nat) (excludes : List String) :
    Except Fault FieldMap := do
  let row ← Fault.ofRecord (Record.toRow record)
  return s.store.dump s.schema (Record.entity α) row depth excludes

/-- The record of a nested mapping. -/
def load (s : Session) (mapping : FieldMap) (hard : Bool) : Except Fault α := do
  let row ← Fault.ofLoad (s.store.load s.schema hard (Record.entity α) mapping)
  Fault.ofRecord (Record.ofRow row)

end Session

end PathQuery
