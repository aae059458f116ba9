import PathQuery.Value.FieldMap

/-! Flat criteria: values by path, in the order in which the paths first came. Putting a
value under a path that is there replaces the value and keeps the place. -/

namespace PathQuery

structure Criteria where
  entries : List (String × Value)
  deriving Repr, Inhabited

namespace Criteria

def empty : Criteria := ⟨[]⟩

instance : EmptyCollection Criteria := ⟨empty⟩

/-- Overwrites the first entry of a path, or adds one at the end. -/
def put (path : String) (value : Value) : List (String × Value) → List (String × Value)
  | [] => [(path, value)]
  | (p, v) :: entries =>
    if p = path then (p, value) :: entries else (p, v) :: put path value entries

def insert (c : Criteria) (path : String) (value : Value) : Criteria := ⟨put path value c.entries⟩

def ofList (pairs : List (String × Value)) : Criteria :=
  pairs.foldl (fun c e => c.insert e.1 e.2) empty

def get? (c : Criteria) (path : String) : Option Value := c.entries.lookup path

def paths (c : Criteria) : List String := c.entries.map (·.1)

def size (c : Criteria) : Nat := c.entries.length

def isEmpty (c : Criteria) : Bool := c.entries.isEmpty

/-- The same paths with values of the same form, in the same order. -/
def same (a b : Criteria) : Bool := Value.sameEntries a.entries b.entries

theorem lookup_put (path : String) (value : Value) (entries : List (String × Value))
    (key : String) :
    (put path value entries).lookup key
      = if key = path then some value else entries.lookup key := by
  induction entries with
  | nil => rw [put, Entries.lookup_cons]
  | cons e entries ih =>
    rw [put]
    split
    · rw [Entries.lookup_cons, Entries.lookup_cons]; grind
    · rw [Entries.lookup_cons, Entries.lookup_cons, ih]; grind

theorem get?_insert (c : Criteria) (path : String) (value : Value) (key : String) :
    (c.insert path value).get? key = if key = path then some value else c.get? key :=
  lookup_put path value c.entries key

theorem keys_put (path : String) (value : Value) (entries : List (String × Value)) :
    (put path value entries).map (·.1)
      = if path ∈ entries.map (·.1) then entries.map (·.1) else entries.map (·.1) ++ [path] := by
  induction entries with
  | nil => simp [put]
  | cons e entries ih =>
    rw [put]
    split
    · next h => simp [h]
    · next h =>
      have h' : ¬ path = e.1 := fun he => h he.symm
      simp only [List.map_cons, ih, List.mem_cons, h', false_or]
      split <;> simp

/-- A path keeps its place when it is there and goes last when it is new. -/
theorem paths_insert (c : Criteria) (path : String) (value : Value) :
    (c.insert path value).paths = if path ∈ c.paths then c.paths else c.paths ++ [path] :=
  keys_put path value c.entries

end Criteria

end PathQuery
