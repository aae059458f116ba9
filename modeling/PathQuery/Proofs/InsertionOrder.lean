import Mathlib.Data.List.Induction
import PathQuery.Criteria.Basic
import PathQuery.Value.Identity

/-! Criteria as a map that keeps its order. Entries are written one at a time or collected from a
list, and paths may come again: a path stays where it came first and has the value that came
last. What the paths are in their order and what each one has determines the criteria, so two
histories that agree on both leave the same entries, and writing again what is there changes
nothing. -/

namespace PathQuery

/-! ### First occurrences -/

section

variable {α : Type} [BEq α] [LawfulBEq α]

theorem eraseDups_concat (as : List α) (a : α) : (as ++ [a]).eraseDups
    = if as.contains a then as.eraseDups else as.eraseDups ++ [a] := by
  rw [List.eraseDups_append, List.cons_removeAll, List.nil_removeAll]
  cases as.contains a with
  | true => simp
  | false => simp [List.eraseDups_cons]

/-- What is left stands in the order of the first occurrences. -/
theorem eraseDups_pairwise_idxOf_lt (as : List α) :
    as.eraseDups.Pairwise fun a b => as.idxOf a < as.idxOf b := by
  induction as using List.reverseRecOn with
  | nil => exact List.Pairwise.nil
  | append_singleton as c ih =>
    -- a first occurrence keeps its index when the list grows at the end
    have hkeep : ∀ a ∈ as.eraseDups, (as ++ [c]).idxOf a = as.idxOf a := fun a ha => by
      rw [List.idxOf_append, if_pos (List.mem_eraseDups.mp ha)]
    have hbefore : as.eraseDups.Pairwise fun a b => (as ++ [c]).idxOf a < (as ++ [c]).idxOf b :=
      ih.imp_of_mem fun ha hb h => by rwa [hkeep _ ha, hkeep _ hb]
    rw [eraseDups_concat]
    split
    · exact hbefore
    · next hc =>
      have hnew : (as ++ [c]).idxOf c = as.length := by
        rw [List.idxOf_append, if_neg (by simpa using hc)]
        simp
      refine List.pairwise_append.mpr ⟨hbefore, List.pairwise_singleton _ _, ?_⟩
      intro a ha b hb
      rw [List.mem_singleton.mp hb, hnew, hkeep a ha]
      exact List.idxOf_lt_length_of_mem (List.mem_eraseDups.mp ha)

end

/-! ### Entries with one path each -/

namespace Entries

variable {α : Type} {entries a b : List (String × α)} {key : String} {value : α}

theorem lookup_eq_none_iff_not_mem_keys :
    entries.lookup key = none ↔ key ∉ entries.map Prod.fst := by
  rw [List.lookup_eq_none_iff, List.mem_map]
  constructor
  · rintro h ⟨e, he, rfl⟩
    simpa using h e he
  · intro h e he
    exact bne_iff_ne.mpr fun heq => h ⟨e, he, heq.symm⟩

theorem mem_of_lookup (h : entries.lookup key = some value) : (key, value) ∈ entries := by
  obtain ⟨before, after, rfl, -⟩ := List.lookup_eq_some_iff.mp h
  exact List.mem_append_right _ List.mem_cons_self

theorem lookup_of_mem (hn : (entries.map Prod.fst).Nodup) (h : (key, value) ∈ entries) :
    entries.lookup key = some value := by
  obtain ⟨before, after, rfl⟩ := List.append_of_mem h
  rw [List.map_append, List.nodup_append] at hn
  refine List.lookup_eq_some_iff.mpr ⟨before, after, rfl, fun e he => ?_⟩
  exact bne_iff_ne.mpr (hn.2.2 e.1 (List.mem_map_of_mem he) key (by simp)).symm

theorem eq_of_keys_eq (hn : (a.map Prod.fst).Nodup) (hk : a.map Prod.fst = b.map Prod.fst)
    (hl : ∀ key, a.lookup key = b.lookup key) : a = b := by
  induction a generalizing b with
  | nil => exact (List.map_eq_nil_iff.mp hk.symm).symm
  | cons e a ih =>
    cases b with
    | nil => cases hk
    | cons f b =>
      obtain ⟨hkey, hkeys⟩ := List.cons.inj hk
      obtain ⟨hfresh, hn⟩ := List.nodup_cons.mp hn
      have hvalue : e.2 = f.2 := by
        have h := hl e.1
        rwa [lookup_cons, lookup_cons, if_pos rfl, if_pos hkey, Option.some.injEq] at h
      have hrest : a = b := by
        refine ih hn hkeys fun key => ?_
        by_cases heq : key = e.1
        · -- the first key does not come again on either side
          rw [heq, lookup_eq_none_iff_not_mem_keys.mpr hfresh,
            lookup_eq_none_iff_not_mem_keys.mpr (hkeys ▸ hfresh)]
        · have h := hl key
          rwa [lookup_cons, lookup_cons, if_neg heq, if_neg (hkey ▸ heq)] at h
      rw [Prod.ext hkey hvalue, hrest]

end Entries

namespace Criteria

variable {c d : Criteria} {pairs others own : List (String × Value)} {path : String}
  {value : Value}

theorem get?_eq_none_iff : c.get? path = none ↔ path ∉ c.paths :=
  Entries.lookup_eq_none_iff_not_mem_keys

theorem mem_entries_iff (hn : c.paths.Nodup) :
    (path, value) ∈ c.entries ↔ c.get? path = some value :=
  ⟨Entries.lookup_of_mem hn, Entries.mem_of_lookup⟩

/-- The paths in their order and what each one has determine the criteria. -/
theorem eq_of_paths_eq (hn : c.paths.Nodup) (hp : c.paths = d.paths)
    (hg : ∀ path, c.get? path = d.get? path) : c = d := by
  have h : c.entries = d.entries := Entries.eq_of_keys_eq hn hp hg
  cases c
  cases d
  exact congrArg Criteria.mk h

/-- Writing an entry that is there changes nothing. -/
theorem insert_of_mem (hn : c.paths.Nodup) (h : (path, value) ∈ c.entries) :
    c.insert path value = c := by
  have hp : (c.insert path value).paths = c.paths := by
    have hm : path ∈ c.paths := List.mem_map_of_mem h
    rw [paths_insert, if_pos hm]
  refine eq_of_paths_eq (hp ▸ hn) hp fun key => ?_
  rw [get?_insert]
  split
  · next heq => rw [heq, (mem_entries_iff hn).mp h]
  · rfl

/-! ### Histories -/

/-- The paths of some pairs, each where it comes first. -/
def firsts (pairs : List (String × Value)) : List String := (pairs.map Prod.fst).eraseDups

/-- The value that the last pair of a path has. -/
def latest? (pairs : List (String × Value)) (path : String) : Option Value :=
  pairs.reverse.lookup path

/-- The criteria came of these pairs, collected from a list or inserted singly, in this order. -/
inductive Written : List (String × Value) → Criteria → Prop
  | empty : Written [] ∅
  | collect (pairs : List (String × Value)) : Written pairs (.ofList pairs)
  | insert {pairs : List (String × Value)} {c : Criteria} (h : Written pairs c) (path : String)
    (value : Value) : Written (pairs ++ [(path, value)]) (c.insert path value)

theorem ofList_append (pairs more : List (String × Value)) :
    ofList (pairs ++ more) = more.foldl (fun c e => c.insert e.1 e.2) (ofList pairs) := by
  rw [ofList, List.foldl_append, ← ofList]

theorem ofList_concat (pairs : List (String × Value)) (e : String × Value) :
    ofList (pairs ++ [e]) = (ofList pairs).insert e.1 e.2 :=
  ofList_append pairs [e]

/-- How the pairs went in does not matter. -/
theorem Written.eq_ofList (h : Written pairs c) : c = ofList pairs := by
  induction h with
  | empty => rfl
  | collect pairs => rfl
  | insert _ path value ih => rw [ih, ofList_concat]

theorem paths_ofList (pairs : List (String × Value)) : (ofList pairs).paths = firsts pairs := by
  induction pairs using List.reverseRecOn with
  | nil => rfl
  | append_singleton pairs e ih =>
    rw [ofList_concat, paths_insert, ih, firsts, firsts, List.map_append, List.map_singleton,
      eraseDups_concat]
    simp only [List.mem_eraseDups, List.contains_iff_mem]

theorem get?_ofList (pairs : List (String × Value)) (path : String) :
    (ofList pairs).get? path = latest? pairs path := by
  induction pairs using List.reverseRecOn with
  | nil => rfl
  | append_singleton pairs e ih =>
    rw [ofList_concat, get?_insert, ih, latest?, latest?, List.reverse_concat, Entries.lookup_cons]

theorem firsts_pairwise (pairs : List (String × Value)) : (firsts pairs).Pairwise fun p q =>
    (pairs.map Prod.fst).idxOf p < (pairs.map Prod.fst).idxOf q :=
  eraseDups_pairwise_idxOf_lt _

theorem nodup_paths_ofList (pairs : List (String × Value)) : (ofList pairs).paths.Nodup := by
  rw [paths_ofList]
  exact (firsts_pairwise pairs).imp fun h heq => absurd (heq ▸ h) (Nat.lt_irrefl _)

theorem put_of_not_mem {entries : List (String × Value)} (h : path ∉ entries.map Prod.fst) :
    put path value entries = entries ++ [(path, value)] := by
  induction entries with
  | nil => rfl
  | cons e entries ih =>
    rw [List.map_cons, List.mem_cons, not_or] at h
    rw [put, if_neg (Ne.symm h.1), ih h.2, List.cons_append]

/-- Pairs of different paths are the entries that come of them. -/
theorem entries_ofList (hn : (pairs.map Prod.fst).Nodup) : (ofList pairs).entries = pairs := by
  induction pairs using List.reverseRecOn with
  | nil => rfl
  | append_singleton pairs e ih =>
    rw [List.map_append, List.nodup_append] at hn
    have hnew : e.1 ∉ pairs.map Prod.fst := fun he => hn.2.2 e.1 he e.1 (by simp) rfl
    rw [ofList_concat, insert, ih hn.1, put_of_not_mem hnew]

theorem ofList_entries (hn : c.paths.Nodup) : ofList c.entries = c :=
  congrArg Criteria.mk (entries_ofList hn)

/-- Entries that come again as they are change nothing. -/
theorem ofList_entries_append (hn : c.paths.Nodup) (h : own ⊆ c.entries) :
    ofList (c.entries ++ own) = c := by
  rw [ofList_append, ofList_entries hn]
  induction own with
  | nil => rfl
  | cons e own ih =>
    obtain ⟨he, hown⟩ := List.cons_subset.mp h
    rw [List.foldl_cons, insert_of_mem hn he]
    exact ih hown

/-- Histories leave the same entries when they have the same paths in the same order of first
occurrence and the same last values. -/
theorem entries_ofList_eq_iff : (ofList others).entries = (ofList pairs).entries ↔
    firsts others = firsts pairs ∧ ∀ path, latest? others path = latest? pairs path := by
  simp only [← paths_ofList, ← get?_ofList]
  constructor
  · intro h
    simp only [paths, get?, h, implies_true, and_self]
  · rintro ⟨hp, hg⟩
    rw [eq_of_paths_eq (nodup_paths_ofList others) hp hg]

/-- Criteria keep the paths that were written, each once and where it came first, with the value
that came last. Nothing else of the history counts, and collecting the entries again, also with
repetitions of them behind, gives the criteria back. -/
theorem first_place_last_value (h : Written pairs c) :
    c.paths.Nodup ∧ c.paths = firsts pairs ∧
      (c.paths.Pairwise fun p q =>
        (pairs.map Prod.fst).idxOf p < (pairs.map Prod.fst).idxOf q) ∧
      (∀ path value, (path, value) ∈ c.entries ↔ latest? pairs path = some value) ∧
      (∀ path, c.get? path = latest? pairs path) ∧
      (∀ path, c.get? path = none ↔ path ∉ pairs.map Prod.fst) ∧
      ofList c.entries = c ∧
      (∀ own, own ⊆ c.entries → ofList (c.entries ++ own) = c) ∧
      ∀ others d, Written others d → (d.entries = c.entries ↔
        firsts others = firsts pairs ∧ ∀ path, latest? others path = latest? pairs path) := by
  obtain rfl := h.eq_ofList
  have hn := nodup_paths_ofList pairs
  have hpaths := paths_ofList pairs
  have hget := get?_ofList pairs
  refine ⟨hn, hpaths, hpaths ▸ firsts_pairwise pairs, ?_, hget, ?_, ofList_entries hn,
    fun _ => ofList_entries_append hn, ?_⟩
  · intro path value
    rw [mem_entries_iff hn, hget]
  · intro path
    rw [get?_eq_none_iff, hpaths, firsts, List.mem_eraseDups]
  · intro others d hd
    rw [hd.eq_ofList, entries_ofList_eq_iff]

end Criteria

namespace Specimen

def draft : List (String × Value) :=
  [("status__name", .text "ok"), ("id__gt", .int 1), ("status__name", .text "new")]

/-- Criteria collected from the draft, with a path more and one that is changed. -/
def revised : Criteria :=
  ((Criteria.ofList draft).insert "name" (.text "a")).insert "id__gt" (.int 2)

def revisions : List (String × Value) :=
  draft ++ [("name", .text "a")] ++ [("id__gt", .int 2)]

/-- A shorter way to the same criteria. -/
def shortcut : List (String × Value) :=
  [("status__name", .text "new"), ("id__gt", .null), ("id__gt", .int 2), ("name", .text "a")]

end Specimen

namespace Criteria

open Specimen in
theorem first_place_last_value_revised :
    Written revisions revised ∧
      revised.paths = ["status__name", "id__gt", "name"] ∧
      revised.get? "status__name" = some (.text "new") ∧
      revised.get? "status" = none ∧
      ("id__gt", .int 2) ∈ revised.entries ∧
      ofList (revised.entries ++ [("id__gt", .int 2), ("status__name", .text "new")]) = revised ∧
      (ofList shortcut).entries = revised.entries := by
  have hw : Written revisions revised := ((Written.collect draft).insert _ _).insert _ _
  obtain ⟨-, hpaths, -, hmem, hget, hnone, -, hown, hsame⟩ := first_place_last_value hw
  have hid : ("id__gt", .int 2) ∈ revised.entries := (hmem _ _).mpr (by decide)
  have hstatus : ("status__name", .text "new") ∈ revised.entries := (hmem _ _).mpr (by decide)
  refine ⟨hw, hpaths.trans (by decide), (hget _).trans (by decide), (hnone _).mpr (by decide), hid,
    hown _ (by simp [hid, hstatus]), (hsame shortcut _ (.collect _)).mpr ⟨by decide, ?_⟩⟩
  intro path
  simp only [latest?, shortcut, revisions, draft, List.reverse_cons, List.reverse_nil,
    List.nil_append, List.cons_append, Entries.lookup_cons]
  grind

end Criteria

end PathQuery
