import PathQuery.Entity
import PathQuery.Operator
import PathQuery.Value.Basic

/-! Filter expressions: comparisons of a column with a value, joined by conjunction,
disjunction and negation. A column is an attribute of the row in one slot of a tuple; slot
zero holds the root row and slot `n` the row of the `n`th join. -/

namespace PathQuery

/-- The slot of the root row. -/
def rootSlot : Nat := 0

/-- The name of a table in a slot: the root goes by the bare name, a joined row by an alias,
so a table joined onto itself stays apart. -/
def slotName (table : String) (slot : Nat) : List Char :=
  if slot = rootSlot then table.toList else table.toList ++ '_' :: Nat.toDigits 10 slot

structure Column where
  entity : Entity
  field : String
  slot : Nat
  deriving DecidableEq, Repr

namespace Column

/-- An attribute of the root row. -/
def root (entity : Entity) (field : String) : Column := ⟨entity, field, rootSlot⟩

/-- Columns are told apart by the name of the entity, the attribute and the slot. -/
def same (a b : Column) : Bool := a.entity.is b.entity && a.field == b.field && a.slot == b.slot

def chars (c : Column) : List Char := slotName c.entity.table c.slot ++ '.' :: c.field.toList

end Column

inductive Expr
  | compare (column : Column) (op : CompareOp) (value : Value)
  | and (parts : List Expr)
  | or (parts : List Expr)
  | not (part : Expr)
  deriving Repr

namespace Expr

/-- Induction in which a conjunction or a disjunction may use the property of its parts. -/
@[elab_as_elim]
theorem induct {P : Expr → Prop} (compare : ∀ column op value, P (.compare column op value))
    (and : ∀ parts, (∀ e ∈ parts, P e) → P (.and parts))
    (or : ∀ parts, (∀ e ∈ parts, P e) → P (.or parts)) (not : ∀ part, P part → P (.not part))
    (e : Expr) : P e := by
  generalize hd : sizeOf e = d
  induction d using Nat.strongRecOn generalizing e with
  | ind d ih =>
    subst hd
    cases e with
    | compare column op value => exact compare column op value
    | and parts =>
      refine and parts fun e he => ih _ ?_ e rfl
      have := List.sizeOf_lt_of_mem he
      simp only [Expr.and.sizeOf_spec]
      omega
    | or parts =>
      refine or parts fun e he => ih _ ?_ e rfl
      have := List.sizeOf_lt_of_mem he
      simp only [Expr.or.sizeOf_spec]
      omega
    | not part =>
      refine not part (ih _ ?_ part rfl)
      simp only [Expr.not.sizeOf_spec]
      omega

/-- The conjunction of some clauses: none for no clause, and a single clause as it is. -/
def allOf : List Expr → Option Expr
  | [] => none
  | [e] => some e
  | parts => some (.and parts)

mutual

def same : Expr → Expr → Bool
  | .compare c op v, .compare c' op' v' => c.same c' && op == op' && v.same v'
  | .and a, .and b => sameParts a b
  | .or a, .or b => sameParts a b
  | .not a, .not b => same a b
  | _, _ => false

def sameParts : List Expr → List Expr → Bool
  | [], [] => true
  | a :: as, b :: bs => same a b && sameParts as bs
  | _, _ => false

end

end Expr

end PathQuery
