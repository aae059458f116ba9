import PathQuery.Value.FieldMap

/-! Deciding whether two values are one and the same, doubles by their words. This is finer
than equality of form, in which the two zeros fall together. -/

namespace PathQuery

namespace Value

mutual

def identical : Value → Value → Bool
  | .null, .null => true
  | .bool a, .bool b => a == b
  | .int a, .int b => a == b
  | .uint a, .uint b => a == b
  | .float a, .float b => a == b
  | .text a, .text b => a == b
  | .list a, .list b => identicalItems a b
  | .map a, .map b => identicalEntries a b
  | _, _ => false

def identicalItems : List Value → List Value → Bool
  | [], [] => true
  | a :: as, b :: bs => identical a b && identicalItems as bs
  | _, _ => false

def identicalEntries : List (String × Value) → List (String × Value) → Bool
  | [], [] => true
  | (k, a) :: as, (l, b) :: bs => k == l && identical a b && identicalEntries as bs
  | _, _ => false

end

theorem identicalItems_iff {as : List Value}
    (h : ∀ a ∈ as, ∀ b, identical a b = true ↔ a = b) (bs : List Value) :
    identicalItems as bs = true ↔ as = bs := by
  induction as generalizing bs with
  | nil => cases bs <;> simp [identicalItems]
  | cons a as ih =>
    cases bs with
    | nil => simp [identicalItems]
    | cons b bs =>
      simp [identicalItems, h a List.mem_cons_self b,
        ih (fun a ha => h a (List.mem_cons_of_mem _ ha)) bs]

theorem identicalEntries_iff {as : List (String × Value)}
    (h : ∀ e ∈ as, ∀ b, identical e.2 b = true ↔ e.2 = b) (bs : List (String × Value)) :
    identicalEntries as bs = true ↔ as = bs := by
  induction as generalizing bs with
  | nil => cases bs <;> simp [identicalEntries]
  | cons e as ih =>
    cases bs with
    | nil => simp [identicalEntries]
    | cons f bs =>
      simp [identicalEntries, Prod.ext_iff, h e List.mem_cons_self f.2,
        ih (fun e he => h e (List.mem_cons_of_mem _ he)) bs]

theorem identical_iff (a b : Value) : identical a b = true ↔ a = b := by
  induction a using induct generalizing b with
  | null => cases b <;> simp [identical]
  | bool x => cases b <;> simp [identical]
  | int x => cases b <;> simp [identical]
  | uint x => cases b <;> simp [identical]
  | float x => cases b <;> simp [identical]
  | text x => cases b <;> simp [identical]
  | list items ih => cases b <;> simp [identical, identicalItems_iff ih]
  | map entries ih => cases b <;> simp [identical, identicalEntries_iff ih]

instance : DecidableEq Value := fun a b => decidable_of_iff _ (identical_iff a b)

end Value

instance : DecidableEq FieldMap := fun a b =>
  decidable_of_iff (a.entries = b.entries) (by cases a; cases b; simp)

end PathQuery
