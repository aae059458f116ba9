import PathQuery.Binary64.Basic

/-! Values of attributes and of criteria: null, truth values, signed and unsigned
integers, doubles, text, lists and records. Values are told apart by structure here; the
comparisons a query makes widen numbers and are defined apart. -/

namespace PathQuery

inductive Value
  | null
  | bool (b : Bool)
  | int (n : Int64)
  | uint (n : UInt64)
  | float (x : Binary64)
  | text (s : String)
  | list (items : List Value)
  | map (entries : List (String × Value))
  deriving Repr, Inhabited

inductive ValueKind
  | null
  | bool
  | int
  | uint
  | float
  | text
  | list
  | map
  deriving DecidableEq, Repr

/-- The name of a kind in messages. -/
def ValueKind.label : ValueKind → String
  | .null => "null"
  | .bool => "bool"
  | .int => "int"
  | .uint => "uint"
  | .float => "float"
  | .text => "text"
  | .list => "list"
  | .map => "map"

namespace Value

def kind : Value → ValueKind
  | .null => .null
  | .bool _ => .bool
  | .int _ => .int
  | .uint _ => .uint
  | .float _ => .float
  | .text _ => .text
  | .list _ => .list
  | .map _ => .map

def isNull : Value → Bool
  | .null => true
  | _ => false

def text? : Value → Option String
  | .text s => some s
  | _ => none

def list? : Value → Option (List Value)
  | .list items => some items
  | _ => none

def map? : Value → Option (List (String × Value))
  | .map entries => some entries
  | _ => none

mutual

/-- Equality of form: numbers of two variants differ, and doubles are equal as numbers. -/
def same : Value → Value → Bool
  | .null, .null => true
  | .bool a, .bool b => a == b
  | .int a, .int b => a == b
  | .uint a, .uint b => a == b
  | .float a, .float b => a.same b
  | .text a, .text b => a == b
  | .list a, .list b => sameItems a b
  | .map a, .map b => sameEntries a b
  | _, _ => false

def sameItems : List Value → List Value → Bool
  | [], [] => true
  | a :: as, b :: bs => same a b && sameItems as bs
  | _, _ => false

def sameEntries : List (String × Value) → List (String × Value) → Bool
  | [], [] => true
  | (k, a) :: as, (l, b) :: bs => k == l && same a b && sameEntries as bs
  | _, _ => false

end

mutual

/-- How deep lists and records nest. -/
def depth : Value → Nat
  | .list items => depthItems items + 1
  | .map entries => depthEntries entries + 1
  | _ => 0

def depthItems : List Value → Nat
  | [] => 0
  | v :: vs => max (depth v) (depthItems vs)

def depthEntries : List (String × Value) → Nat
  | [] => 0
  | (_, v) :: es => max (depth v) (depthEntries es)

end

theorem depth_le_depthItems {v : Value} {vs : List Value} (h : v ∈ vs) :
    depth v ≤ depthItems vs := by
  induction vs with
  | nil => cases h
  | cons w vs ih =>
    rw [depthItems]
    rcases List.mem_cons.mp h with rfl | h
    · exact Nat.le_max_left _ _
    · exact Nat.le_trans (ih h) (Nat.le_max_right _ _)

theorem depth_le_depthEntries {e : String × Value} {es : List (String × Value)} (h : e ∈ es) :
    depth e.2 ≤ depthEntries es := by
  induction es with
  | nil => cases h
  | cons f es ih =>
    rw [depthEntries]
    rcases List.mem_cons.mp h with rfl | h
    · exact Nat.le_max_left _ _
    · exact Nat.le_trans (ih h) (Nat.le_max_right _ _)

/-- Induction in which a list or a record may use the property of all its members. -/
@[elab_as_elim]
theorem induct {P : Value → Prop} (null : P .null) (bool : ∀ b, P (.bool b))
    (int : ∀ n, P (.int n)) (uint : ∀ n, P (.uint n)) (float : ∀ x, P (.float x))
    (text : ∀ s, P (.text s)) (list : ∀ items, (∀ v ∈ items, P v) → P (.list items))
    (map : ∀ entries, (∀ e ∈ entries, P e.2) → P (.map entries)) (v : Value) : P v := by
  generalize hd : v.depth = d
  induction d using Nat.strongRecOn generalizing v with
  | ind d ih =>
    subst hd
    cases v with
    | null => exact null
    | bool b => exact bool b
    | int n => exact int n
    | uint n => exact uint n
    | float x => exact float x
    | text s => exact text s
    | list items =>
      exact list items fun v hv => ih _ (Nat.lt_succ_of_le (depth_le_depthItems hv)) v rfl
    | map entries =>
      exact map entries fun e he => ih _ (Nat.lt_succ_of_le (depth_le_depthEntries he)) e.2 rfl

end Value

end PathQuery
