import PathQuery.Expr.Basic
import PathQuery.Text.Pattern
import PathQuery.Value.Comparison
import PathQuery.Value.FieldMap

/-! The truth of an expression on a tuple of rows. It has two values: a comparison that
reads an attribute its row does not have, or that is undefined, is false, and negation
turns that round. -/

namespace PathQuery

/-- The rows of one candidate, by slot. -/
abbrev Tuple := List FieldMap

/-- The attribute a column reads. -/
def Column.read (c : Column) (tuple : Tuple) : Option Value :=
  tuple[c.slot]?.bind fun row => row.get? c.field

namespace CompareOp

/-- A text matches a pattern; nothing else does. -/
def fits (mode : TextMode) : Value → Value → Bool
  | .text s, .text pattern => PathQuery.like s pattern mode
  | _, _ => false

/-- The comparison of what a row holds with the value of a criterion. -/
def holds (op : CompareOp) (actual value : Value) : Bool :=
  match op with
  | .eq => actual.equal? value == some true
  | .ne => actual.equal? value == some false
  | .lt => (actual.order? value).any Ordering.isLT
  | .le => (actual.order? value).any Ordering.isLE
  | .gt => (actual.order? value).any Ordering.isGT
  | .ge => (actual.order? value).any Ordering.isGE
  | .within => actual.among? value == some true
  | .like => fits .caseSensitive actual value
  | .ilike => fits .caseInsensitive actual value

end CompareOp

namespace Expr

mutual

def holds (tuple : Tuple) : Expr → Bool
  | .compare column op value => (column.read tuple).any fun actual => op.holds actual value
  | .and parts => allHold tuple parts
  | .or parts => anyHolds tuple parts
  | .not part => !holds tuple part

def allHold (tuple : Tuple) : List Expr → Bool
  | [] => true
  | e :: es => holds tuple e && allHold tuple es

def anyHolds (tuple : Tuple) : List Expr → Bool
  | [] => false
  | e :: es => holds tuple e || anyHolds tuple es

end

theorem allHold_eq_all (tuple : Tuple) (es : List Expr) :
    allHold tuple es = es.all (holds tuple) := by
  induction es with
  | nil => rfl
  | cons e es ih => rw [allHold, ih, List.all_cons]

theorem anyHolds_eq_any (tuple : Tuple) (es : List Expr) :
    anyHolds tuple es = es.any (holds tuple) := by
  induction es with
  | nil => rfl
  | cons e es ih => rw [anyHolds, ih, List.any_cons]

@[simp] theorem holds_and (tuple : Tuple) (es : List Expr) :
    holds tuple (.and es) = es.all (holds tuple) := by rw [holds, allHold_eq_all]

@[simp] theorem holds_or (tuple : Tuple) (es : List Expr) :
    holds tuple (.or es) = es.any (holds tuple) := by rw [holds, anyHolds_eq_any]

@[simp] theorem holds_not (tuple : Tuple) (e : Expr) :
    holds tuple (.not e) = !holds tuple e := by rw [holds]

/-- The conjunction of clauses holds where all of them do. -/
theorem all_allOf (tuple : Tuple) (es : List Expr) :
    (allOf es).all (holds tuple) = es.all (holds tuple) := by
  match es with
  | [] => rfl
  | [e] => simp [allOf]
  | e :: f :: rest => simp [allOf]

end Expr

end PathQuery
