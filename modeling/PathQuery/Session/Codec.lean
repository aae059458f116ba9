import PathQuery.Json.Numeral

/-! Reading typed members out of JSON documents. Integers have to be integers in range,
doubles take any number, and everything else takes its own kind alone. Unknown members
are passed over. -/

namespace PathQuery

namespace Json

variable {α : Type}

def uint64? : Json → Option UInt64
  | .number n => n.uint64?
  | _ => none

def int64? : Json → Option Int64
  | .number n => n.int64?
  | _ => none

def binary64? : Json → Option Binary64
  | .number n => some n.toBinary64
  | _ => none

def bool? : Json → Option Bool
  | .bool b => some b
  | _ => none

def text? : Json → Option String
  | .text s => some s
  | _ => none

def members? : Json → Option (List (String × Json))
  | .object members => some members
  | _ => none

/-- Null, or what the reader takes. -/
def nullable (read : Json → Option α) : Json → Option (Option α)
  | .null => some none
  | json => (read json).map some

def ofUInt64 (n : UInt64) : Json := .number (.nonnegative n)

def ofInt64 (n : Int64) : Json := .number (.ofInt64 n)

end Json

namespace Members

variable {α : Type}

/-- A member that has to be there. -/
def required (members : List (String × Json)) (name : String) (read : Json → Option α) :
    Option α :=
  (members.lookup name).bind read

/-- A member that has a default. -/
def defaulted (members : List (String × Json)) (name : String) (read : Json → Option α)
    (default : α) : Option α :=
  match members.lookup name with
  | none => some default
  | some json => read json

end Members

namespace Json

/-- The text that a document stands for as the key of a member: a text itself, and a
number or a truth value its spelling. -/
def keyText? : Json → Option String
  | .text s => some s
  | .bool b => some (if b then "true" else "false")
  | .number n => some n.toText
  | _ => none

end Json

end PathQuery
