import PathQuery.Json
import PathQuery.Value.FieldMap

/-! Values from JSON and back. An integer in signed range becomes signed, one above it
unsigned, and every other number a double, so reading loses nothing. Writing turns a
double that is no finite number into null and forgets which kind of integer a small one
was; `bridged` is what is left of a value after both. -/

namespace PathQuery

-- a power is the core library's, whatever else is in scope
attribute [local instance (high)] instPowNat

namespace JsonNumber

def toValue (n : JsonNumber) : Value :=
  match n.int64?, n.uint64? with
  | some i, _ => .int i
  | none, some u => .uint u
  | none, none => .float n.toBinary64

end JsonNumber

namespace Json

mutual

def toValue : Json → Value
  | .null => .null
  | .bool b => .bool b
  | .number n => n.toValue
  | .text s => .text s
  | .array items => .list (toValues items)
  | .object members => .map (toEntries members)

def toValues : List Json → List Value
  | [] => []
  | j :: js => toValue j :: toValues js

def toEntries : List (String × Json) → List (String × Value)
  | [] => []
  | (k, j) :: ms => (k, toValue j) :: toEntries ms

end

/-- Members in the order of their keys, of one key the last. -/
def ofMembers (members : List (String × Json)) : Json := .object (Entries.collect members)

end Json

namespace Value

mutual

def toJson : Value → Json
  | .null => .null
  | .bool b => .bool b
  | .int n => .number (.ofInt64 n)
  | .uint n => .number (.nonnegative n)
  | .float x => .ofBinary64 x
  | .text s => .text s
  | .list items => .array (toJsonItems items)
  | .map entries => .object (toJsonMembers entries)

def toJsonItems : List Value → List Json
  | [] => []
  | v :: vs => toJson v :: toJsonItems vs

def toJsonMembers : List (String × Value) → List (String × Json)
  | [] => []
  | (k, v) :: es => (k, toJson v) :: toJsonMembers es

end

mutual

/-- The value with every double that is not finite made null and every unsigned integer in
signed range made signed, at any depth. -/
def bridged : Value → Value
  | .float x => if x.isFinite then .float x else .null
  | .uint n => if n.toNat < 2 ^ (63 : Nat) then .int (Int64.ofInt n.toNat) else .uint n
  | .list items => .list (bridgedItems items)
  | .map entries => .map (bridgedEntries entries)
  | v => v

def bridgedItems : List Value → List Value
  | [] => []
  | v :: vs => bridged v :: bridgedItems vs

def bridgedEntries : List (String × Value) → List (String × Value)
  | [] => []
  | (k, v) :: es => (k, bridged v) :: bridgedEntries es

end

end Value

namespace FieldMap

def toJson (row : FieldMap) : Json := row.toValue.toJson

end FieldMap

end PathQuery
