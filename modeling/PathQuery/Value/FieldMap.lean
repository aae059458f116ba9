import PathQuery.Value.Basic

/-! Records: values by attribute name, listed by increasing name with each name once. Two
records with the same value under every name are equal, and collecting the entries of a
record gives the record back. -/

namespace PathQuery

namespace Entries

variable {α : Type}

/-- Names increase along the list. -/
def Sorted (entries : List (String × α)) : Prop := entries.Pairwise fun a b => a.1 < b.1

instance (entries : List (String × α)) : Decidable (Sorted entries) :=
  inferInstanceAs (Decidable (entries.Pairwise fun a b => a.1 < b.1))

/-- Puts a value at the place of its name, over the value that was there. -/
def insert (name : String) (value : α) : List (String × α) → List (String × α)
  | [] => [(name, value)]
  | (key, old) :: entries =>
    if name < key then (name, value) :: (key, old) :: entries
    else if name = key then (name, value) :: entries
    else (key, old) :: insert name value entries

theorem mem_insert {name : String} {value : α} {entries : List (String × α)} {e : String × α}
    (h : e ∈ insert name value entries) : e = (name, value) ∨ e ∈ entries := by
  induction entries with
  | nil => simpa [insert] using h
  | cons f entries ih =>
    simp only [insert] at h
    split at h
    · simpa using h
    · split at h
      · rcases List.mem_cons.mp h with h | h
        · exact .inl h
        · exact .inr (List.mem_cons_of_mem _ h)
      · rcases List.mem_cons.mp h with h | h
        · exact .inr (h ▸ List.mem_cons_self)
        · exact (ih h).imp_right (List.mem_cons_of_mem _)

theorem sorted_insert {entries : List (String × α)} (name : String) (value : α)
    (h : Sorted entries) : Sorted (insert name value entries) := by
  induction entries with
  | nil => simp [insert, Sorted]
  | cons f entries ih =>
    have hf : ∀ e ∈ entries, f.1 < e.1 := (List.pairwise_cons.mp h).1
    have ht : Sorted entries := (List.pairwise_cons.mp h).2
    simp only [insert]
    split
    · next hlt =>
      refine List.pairwise_cons.mpr ⟨fun e he => ?_, h⟩
      rcases List.mem_cons.mp he with rfl | he
      · exact hlt
      · exact String.lt_trans hlt (hf e he)
    · next hge =>
      split
      · next heq => exact List.pairwise_cons.mpr ⟨fun e he => heq ▸ hf e he, ht⟩
      · next hne =>
        refine List.pairwise_cons.mpr ⟨fun e he => ?_, ih ht⟩
        rcases mem_insert he with rfl | he
        · grind
        · exact hf e he

theorem lookup_cons (e : String × α) (entries : List (String × α)) (key : String) :
    (e :: entries).lookup key = if key = e.1 then some e.2 else entries.lookup key := by
  rw [List.lookup_cons]
  by_cases h : key = e.1
  · simp [h]
  · rw [if_neg h, beq_eq_false_iff_ne.mpr h]

theorem lookup_insert (entries : List (String × α)) (name : String) (value : α) (key : String) :
    (insert name value entries).lookup key
      = if key = name then some value else entries.lookup key := by
  induction entries with
  | nil => rw [insert, lookup_cons]
  | cons f entries ih =>
    simp only [insert]
    split
    · rw [lookup_cons]
    · split
      · next heq => rw [lookup_cons, lookup_cons]; grind
      · next hne => rw [lookup_cons, lookup_cons, ih]; grind

/-- Values collected by name, of one name the last. -/
def collect (pairs : List (String × α)) : List (String × α) :=
  pairs.foldl (fun entries e => insert e.1 e.2 entries) []

theorem sorted_collect (pairs : List (String × α)) : Sorted (collect pairs) := by
  suffices h : ∀ entries, Sorted entries →
      Sorted (pairs.foldl (fun entries e => insert e.1 e.2 entries) entries) from h [] .nil
  induction pairs with
  | nil => exact fun _ h => h
  | cons e pairs ih => exact fun entries h => ih _ (sorted_insert _ _ h)

theorem insert_of_greater {entries : List (String × α)} {name : String} (value : α)
    (h : ∀ e ∈ entries, e.1 < name) : insert name value entries = entries ++ [(name, value)] := by
  induction entries with
  | nil => rfl
  | cons f entries ih =>
    have hf := h f List.mem_cons_self
    rw [insert, if_neg (String.lt_asymm hf), if_neg fun he => String.lt_irrefl _ (he ▸ hf),
      ih fun e he => h e (List.mem_cons_of_mem _ he), List.cons_append]

theorem collect_of_sorted {entries : List (String × α)} (h : Sorted entries) :
    collect entries = entries := by
  suffices hs : ∀ before, Sorted (before ++ entries) →
      entries.foldl (fun es e => insert e.1 e.2 es) before = before ++ entries from hs [] h
  clear h
  induction entries with
  | nil => simp
  | cons e entries ih =>
    intro before hb
    have hlt : ∀ f ∈ before, f.1 < e.1 := fun f hf =>
      (List.pairwise_append.mp hb).2.2 f hf e List.mem_cons_self
    rw [List.foldl_cons, insert_of_greater e.2 hlt, ih _ (by simpa using hb)]
    simp

theorem lookup_eq_none_of_sorted {name : String} {entries : List (String × α)}
    (h : ∀ e ∈ entries, name < e.1) : entries.lookup name = none := by
  induction entries with
  | nil => rfl
  | cons f entries ih =>
    have hf : ¬ name = f.1 := fun he => String.lt_irrefl _ (he ▸ h f List.mem_cons_self)
    rw [lookup_cons, if_neg hf, ih fun e he => h e (List.mem_cons_of_mem _ he)]

theorem eq_of_lookup_eq {a b : List (String × α)} (ha : Sorted a) (hb : Sorted b)
    (h : ∀ name, a.lookup name = b.lookup name) : a = b := by
  induction a generalizing b with
  | nil =>
    cases b with
    | nil => rfl
    | cons f b =>
      have hn := h f.1
      simp [lookup_cons] at hn
  | cons e a ih =>
    cases b with
    | nil =>
      have hn := h e.1
      simp [lookup_cons] at hn
    | cons f b =>
      have he : ∀ x ∈ a, e.1 < x.1 := (List.pairwise_cons.mp ha).1
      have hf : ∀ x ∈ b, f.1 < x.1 := (List.pairwise_cons.mp hb).1
      have hkey : e.1 = f.1 := by
        by_cases hlt : e.1 < f.1
        · have hn := h e.1
          have hnone : (f :: b).lookup e.1 = none := lookup_eq_none_of_sorted fun x hx => by
            rcases List.mem_cons.mp hx with rfl | hx
            · exact hlt
            · exact String.lt_trans hlt (hf x hx)
          rw [hnone] at hn
          simp [lookup_cons] at hn
        · by_cases hgt : f.1 < e.1
          · have hn := h f.1
            have hnone : (e :: a).lookup f.1 = none := lookup_eq_none_of_sorted fun x hx => by
              rcases List.mem_cons.mp hx with rfl | hx
              · exact hgt
              · exact String.lt_trans hgt (he x hx)
            rw [hnone] at hn
            simp [lookup_cons] at hn
          · grind
      have hval : e.2 = f.2 := by
        have hn := h e.1
        rw [lookup_cons, lookup_cons] at hn
        simpa [hkey] using hn
      have htail : a = b := by
        refine ih (List.pairwise_cons.mp ha).2 (List.pairwise_cons.mp hb).2 fun name => ?_
        by_cases hn : name = e.1
        · rw [hn, lookup_eq_none_of_sorted he, lookup_eq_none_of_sorted (hkey ▸ hf)]
        · have hl := h name
          rw [lookup_cons, lookup_cons, if_neg hn, if_neg (hkey ▸ hn)] at hl
          exact hl
      rw [Prod.ext hkey hval, htail]

end Entries

/-- One row, or one nested mapping. -/
structure FieldMap where
  entries : List (String × Value)
  sorted : Entries.Sorted entries
  deriving Repr

namespace FieldMap

def empty : FieldMap := ⟨[], .nil⟩

instance : EmptyCollection FieldMap := ⟨empty⟩

instance : Inhabited FieldMap := ⟨empty⟩

def get? (row : FieldMap) (name : String) : Option Value := row.entries.lookup name

def insert (row : FieldMap) (name : String) (value : Value) : FieldMap :=
  ⟨Entries.insert name value row.entries, Entries.sorted_insert name value row.sorted⟩

def keys (row : FieldMap) : List String := row.entries.map (·.1)

/-- The record of a list of entries, of one name the last. -/
def ofEntries (pairs : List (String × Value)) : FieldMap :=
  ⟨Entries.collect pairs, Entries.sorted_collect pairs⟩

def toValue (row : FieldMap) : Value := .map row.entries

def depth (row : FieldMap) : Nat := Value.depthEntries row.entries

theorem get?_insert (row : FieldMap) (name : String) (value : Value) (key : String) :
    (row.insert name value).get? key = if key = name then some value else row.get? key :=
  Entries.lookup_insert row.entries name value key

theorem mem_keys {row : FieldMap} {name : String} :
    name ∈ row.keys ↔ (row.get? name).isSome = true := by
  rw [keys, get?]
  generalize row.entries = entries
  induction entries with
  | nil => simp
  | cons e entries ih =>
    rw [List.map_cons, List.mem_cons, ih, Entries.lookup_cons]
    by_cases h : name = e.1 <;> simp [h]

@[simp] theorem ofEntries_entries (row : FieldMap) : ofEntries row.entries = row := by
  cases row with
  | mk entries sorted => simp [ofEntries, Entries.collect_of_sorted sorted]

@[ext] theorem ext_get? {a b : FieldMap} (h : ∀ name, a.get? name = b.get? name) : a = b := by
  cases a with
  | mk a ha =>
    cases b with
    | mk b hb => simpa using Entries.eq_of_lookup_eq ha hb h

theorem depth_le_of_get? {row : FieldMap} {name : String} {value : Value}
    (h : row.get? name = some value) : value.depth ≤ row.depth := by
  have hm : (name, value) ∈ row.entries := by
    rw [get?, List.lookup_eq_some_iff] at h
    obtain ⟨l₁, l₂, he, -⟩ := h
    simp [he]
  exact Value.depth_le_depthEntries hm

theorem depthEntries_insert_le (name : String) (value : Value) (entries : List (String × Value)) :
    Value.depthEntries (Entries.insert name value entries)
      ≤ max value.depth (Value.depthEntries entries) := by
  induction entries with
  | nil => simp [Entries.insert, Value.depthEntries]
  | cons e entries ih =>
    simp only [Entries.insert]
    split
    · simp [Value.depthEntries]
    · split
      · simp only [Value.depthEntries]; omega
      · simp only [Value.depthEntries]; omega

theorem depth_ofEntries_le (pairs : List (String × Value)) :
    (ofEntries pairs).depth ≤ Value.depthEntries pairs := by
  suffices h : ∀ entries, Value.depthEntries
      (pairs.foldl (fun es e => Entries.insert e.1 e.2 es) entries)
        ≤ max (Value.depthEntries entries) (Value.depthEntries pairs) by
    simpa [Value.depthEntries, depth, ofEntries, Entries.collect] using h []
  induction pairs with
  | nil => exact fun entries => Nat.le_max_left _ _
  | cons e pairs ih =>
    intro entries
    refine Nat.le_trans (ih _) ?_
    have := depthEntries_insert_le e.1 e.2 entries
    simp only [Value.depthEntries]
    omega

/-- A record nested in a record is less deep. -/
theorem depth_ofEntries_lt {row : FieldMap} {name : String} {entries : List (String × Value)}
    (h : row.get? name = some (.map entries)) : (ofEntries entries).depth < row.depth := by
  have := depth_ofEntries_le entries
  have := depth_le_of_get? h
  simp only [Value.depth] at this
  omega

theorem depthItems_lt {row : FieldMap} {name : String} {items : List Value}
    (h : row.get? name = some (.list items)) : Value.depthItems items < row.depth := by
  have := depth_le_of_get? h
  simp only [Value.depth] at this
  omega

theorem depth_ofEntries_lt_depthItems (entries : List (String × Value)) (items : List Value) :
    (ofEntries entries).depth < Value.depthItems (.map entries :: items) := by
  have := depth_ofEntries_le entries
  simp only [Value.depthItems, Value.depth]
  omega

end FieldMap

/-- The record that a value holds. -/
def Value.fieldMap? : Value → Option FieldMap
  | .map entries => some (.ofEntries entries)
  | _ => none

end PathQuery
