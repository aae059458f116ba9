import PathQuery.Session.Codec
import PathQuery.Session.Record
import PathQuery.Specimen.Entities

/-! Record types of the specimen entities. Four of them fill in members that are missing,
one insists on most of its members, one takes any document as it is, and one makes its
members from pairs, whose keys may have no text. -/

namespace PathQuery

namespace Specimen

structure Treatment where
  id : UInt64
  name : String
  statusId : Option UInt64
  deriving DecidableEq, Repr

structure Status where
  id : UInt64
  name : String
  categoryId : Option UInt64
  deriving DecidableEq, Repr

structure Category where
  id : UInt64
  label : String
  deriving DecidableEq, Repr

structure Node where
  id : UInt64
  name : String
  parentId : Option UInt64
  deriving DecidableEq, Repr

structure Sample where
  id : Int64
  ratio : Binary64
  flag : Bool
  note : Option String
  deriving DecidableEq, Repr

/-- Any document. -/
structure Odd where
  json : Json
  deriving Repr

/-- Members by keys that are documents themselves. -/
structure Keyed where
  pairs : List (Json × Json)
  deriving Repr

/-- A number that may be missing. -/
def reference (n : Option UInt64) : Json := (n.map Json.ofUInt64).getD .null

instance : Record Treatment where
  entity := treatment
  encode r := some <| .ofMembers
    [("id", .ofUInt64 r.id), ("name", .text r.name), ("status_id", reference r.statusId)]
  decode json := do
    let members ← json.members?
    let id ← Members.defaulted members "id" Json.uint64? 0
    let name ← Members.defaulted members "name" Json.text? ""
    let statusId ← Members.defaulted members "status_id" (Json.nullable Json.uint64?) none
    return ⟨id, name, statusId⟩

instance : Record Status where
  entity := status
  encode r := some <| .ofMembers
    [("id", .ofUInt64 r.id), ("name", .text r.name), ("category_id", reference r.categoryId)]
  decode json := do
    let members ← json.members?
    let id ← Members.defaulted members "id" Json.uint64? 0
    let name ← Members.defaulted members "name" Json.text? ""
    let categoryId ← Members.defaulted members "category_id" (Json.nullable Json.uint64?) none
    return ⟨id, name, categoryId⟩

instance : Record Category where
  entity := category
  encode r := some <| .ofMembers [("id", .ofUInt64 r.id), ("label", .text r.label)]
  decode json := do
    let members ← json.members?
    let id ← Members.defaulted members "id" Json.uint64? 0
    let label ← Members.defaulted members "label" Json.text? ""
    return ⟨id, label⟩

instance : Record Node where
  entity := node
  encode r := some <| .ofMembers
    [("id", .ofUInt64 r.id), ("name", .text r.name), ("parent_id", reference r.parentId)]
  decode json := do
    let members ← json.members?
    let id ← Members.defaulted members "id" Json.uint64? 0
    let name ← Members.defaulted members "name" Json.text? ""
    let parentId ← Members.defaulted members "parent_id" (Json.nullable Json.uint64?) none
    return ⟨id, name, parentId⟩

instance : Record Sample where
  entity := sample
  encode r := some <| .ofMembers
    [("id", .ofInt64 r.id), ("ratio", .ofBinary64 r.ratio), ("flag", .bool r.flag),
      ("note", (r.note.map Json.text).getD .null)]
  decode json := do
    let members ← json.members?
    let id ← Members.required members "id" Json.int64?
    let ratio ← Members.required members "ratio" Json.binary64?
    let flag ← Members.required members "flag" Json.bool?
    let note ← Members.defaulted members "note" (Json.nullable Json.text?) none
    return ⟨id, ratio, flag, note⟩

instance : Record Odd where
  entity := odd
  encode r := some r.json
  decode json := some ⟨json⟩

/-- The key and the value of an item that is a pair. -/
def pair? : Json → Option (Json × Json)
  | .array [key, value] => some (key, value)
  | _ => none

instance : Record Keyed where
  entity := keyed
  encode r := do
    let members ← r.pairs.mapM fun (key, value) => key.keyText?.map fun text => (text, value)
    return .ofMembers members
  decode
    | .array items => some ⟨items.filterMap pair?⟩
    | .object members => some ⟨members.map fun (key, value) => (.text key, value)⟩
    | _ => some ⟨[]⟩

end Specimen

end PathQuery
