import PathQuery.Json
import PathQuery.Value.FieldMap

/-! The untagged form of values: written, a value leaves no mark of its variant, and read,
the variants are tried in their order and the first that accepts a document wins. What a
document is to each kind of part, and what a part is to a document, is up to the data format;
in that of JSON a variant of integers accepts only integers in its range, the variant of
doubles any number. -/

namespace PathQuery

/-- What a data format makes of each kind of part. -/
structure Writer (α : Type) where
  unit : α
  bool : Bool → α
  int64 : Int64 → α
  uint64 : UInt64 → α
  binary64 : Binary64 → α
  text : String → α
  sequence : List α → α
  record : List (String × α) → α

/-- Documents as a data format. -/
def Json.writer : Writer Json where
  unit := .null
  bool := .bool
  int64 n := .number (.ofInt64 n)
  uint64 n := .number (.nonnegative n)
  binary64 := .ofBinary64
  text := .text
  sequence := .array
  record := .object

/-- What a data format accepts of documents as each kind of part that holds no others. -/
structure Reader where
  unit : Json → Bool
  bool : Json → Option Bool
  int64 : Json → Option Int64
  uint64 : Json → Option UInt64
  binary64 : Json → Option Binary64
  text : Json → Option String

def Json.reader : Reader where
  unit j := match j with | .null => true | _ => false
  bool j := match j with | .bool b => some b | _ => none
  int64 j := match j with | .number n => n.int64? | _ => none
  uint64 j := match j with | .number n => n.uint64? | _ => none
  binary64 j := match j with | .number n => some n.toBinary64 | _ => none
  text j := match j with | .text s => some s | _ => none

namespace Value

variable {α : Type}

mutual

/-- Writes a value by its contents alone. -/
def write (w : Writer α) : Value → α
  | .null => w.unit
  | .bool b => w.bool b
  | .int n => w.int64 n
  | .uint n => w.uint64 n
  | .float x => w.binary64 x
  | .text s => w.text s
  | .list items => w.sequence (writeItems w items)
  | .map entries => w.record (writeEntries w entries)

def writeItems (w : Writer α) : List Value → List α
  | [] => []
  | v :: vs => write w v :: writeItems w vs

def writeEntries (w : Writer α) : List (String × Value) → List (String × α)
  | [] => []
  | (k, v) :: es => (k, write w v) :: writeEntries w es

end

/-- The variants without parts, each with the documents it accepts, in order. -/
def variants (r : Reader) : List (Json → Option Value) :=
  [ fun j => if r.unit j then some .null else none,
    fun j => (r.bool j).map .bool,
    fun j => (r.int64 j).map .int,
    fun j => (r.uint64 j).map .uint,
    fun j => (r.binary64 j).map .float,
    fun j => (r.text j).map .text ]

mutual

/-- Reads a document as the first variant that accepts it; lists come before records, and
both after the variants without parts. -/
def readBy (r : Reader) (j : Json) : Option Value :=
  ((variants r).findSome? fun accept => accept j).or <|
    match j with
    | .array items => (readItemsBy r items).map .list
    | .object members => (readMembersBy r members).map .map
    | _ => none

def readItemsBy (r : Reader) : List Json → Option (List Value)
  | [] => some []
  | j :: js => (readBy r j).bind fun v => (readItemsBy r js).map (v :: ·)

def readMembersBy (r : Reader) : List (String × Json) → Option (List (String × Value))
  | [] => some []
  | (k, j) :: ms => (readBy r j).bind fun v => (readMembersBy r ms).map ((k, v) :: ·)

end

/-- Reads a document as JSON has it. -/
def read : Json → Option Value := readBy Json.reader

end Value

end PathQuery
