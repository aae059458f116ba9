import PathQuery.Criteria.Basic
import PathQuery.Criteria.Path
import PathQuery.Join
import PathQuery.Staging

/-! Criteria against an entity. A path is walked hop by hop from the root entity; each hop
takes its join into the set at once and moves on to the target, in the slot the set gives.
The attribute at the end is then compared with the value of the entry, if the comparison
applies to both. One expression comes of each entry, in their order. The entries work on a
copy of the join set, so a failure leaves nothing behind. -/

namespace PathQuery

/-- Works on a join set. -/
abbrev Compiling := EStateM CriteriaError JoinSet

/-- Where a walk stands: an entity and the slot its row is in. -/
structure Standing where
  entity : Entity
  slot : Nat

namespace Standing

/-- Before the first hop. -/
def start (root : Entity) : Standing := ⟨root, rootSlot⟩

/-- Follows one relationship. -/
def hop (schema : Schema) (here : Standing) (name : String) : Compiling Standing :=
  match here.entity.relation? name with
  | none => throw (.unknownRelation here.entity.name name)
  | some relation => do
    let target := schema.target relation
    let slot ← modifyGet (JoinSet.insert · (.step here.entity here.slot name relation target))
    return ⟨target, slot⟩

/-- Follows relationships one after another. -/
def walk (schema : Schema) : Standing → List String → Compiling Standing
  | here, [] => return here
  | here, name :: names => do
    let next ← hop schema here name
    walk schema next names

end Standing

/-- The kind of the scalar attribute of a name, which a comparison may read. -/
def Entity.comparable (e : Entity) (name : String) : Except CriteriaError ScalarKind :=
  match e.scalar? name with
  | some kind => .ok kind
  | none =>
    if (e.relation? name).isSome then .error (.relationNotComparable e.name name)
    else .error (.unknownAttribute e.name name)

/-- Membership needs a list, and patterns need text on both sides. -/
def checkOperand (entity : Entity) (field : String) (kind : ScalarKind) (op : CompareOp)
    (value : Value) : Except CriteriaError Unit :=
  match op with
  | .within =>
    if value.kind = .list then .ok ()
    else .error (.invalidListValue entity.name field op value.kind)
  | .like | .ilike =>
    if kind ≠ .text then .error (.unsupportedOperator entity.name field op (.attributeKind kind))
    else if value.kind ≠ .text then
      .error (.unsupportedOperator entity.name field op (.patternKind value.kind))
    else .ok ()
  | _ => .ok ()

/-- The comparison that one entry asks for. -/
def compileEntry (schema : Schema) (root : Entity) (entry : String × Value) : Compiling Expr := do
  let path ← liftExcept (Path.parse entry.1)
  let here ← (Standing.start root).walk schema path.hops
  let kind ← liftExcept (here.entity.comparable path.field)
  liftExcept (checkOperand here.entity path.field kind path.op entry.2)
  return .compare ⟨here.entity, path.field, here.slot⟩ path.op entry.2

/-- The comparisons of some entries in order. -/
def compileEntries (schema : Schema) (root : Entity) :
    List (String × Value) → Compiling (List Expr)
  | [] => return []
  | entry :: entries => do
    let expr ← compileEntry schema root entry
    let exprs ← compileEntries schema root entries
    return expr :: exprs

namespace Criteria

def compileM (schema : Schema) (root : Entity) (criteria : Criteria) : Compiling (List Expr) :=
  staged (compileEntries schema root criteria.entries)

/-- The expressions with the joins they need. -/
def compile (schema : Schema) (root : Entity) (joins : JoinSet) (criteria : Criteria) :
    Except CriteriaError (List Expr × JoinSet) :=
  outcome (criteria.compileM schema root) joins

end Criteria

end PathQuery
