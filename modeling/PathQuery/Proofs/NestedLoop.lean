import Mathlib.Data.List.Induction
import Mathlib.Data.List.Sort
import PathQuery.Proofs.Repetition
import PathQuery.Store.Execute

/-! What the nested loops compute. A candidate is a tuple that follows the joins: it has one
row more than there are joins, starts with the root row at its place, and holds in each
later slot a stored row that its join links to an earlier one. The loops keep candidates in
the order of their root rows, so taking each root row once gives increasing places. -/

namespace PathQuery

/-- The first row has under the local key what the second has under the remote key. -/
def Relation.Links (r : Relation) (source target : FieldMap) : Prop :=
  ∃ a b, source.get? r.localKey = some a ∧ target.get? r.remoteKey = some b ∧
    a.equal? b = some true

theorem Relation.links_iff {r : Relation} {source target : FieldMap} :
    r.Links source target ↔ ((source.get? r.localKey).any fun a =>
      (target.get? r.remoteKey).any fun b => a.equals b) = true := by
  simp [Links, Option.any_eq_true, Value.equals]

instance (r : Relation) (source target : FieldMap) : Decidable (r.Links source target) :=
  decidable_of_iff _ Relation.links_iff.symm

theorem Join.pairs_iff {j : Join} {tuple : Tuple} {row : FieldMap} :
    j.pairs tuple row = true ↔
      ∃ source, tuple[j.sourceSlot]? = some source ∧ j.relation.Links source row := by
  unfold Join.pairs Relation.Links
  cases hs : tuple[j.sourceSlot]? with
  | none => simp
  | some source =>
    cases ha : source.get? j.relation.localKey with
    | none => simp [ha]
    | some a => simp [ha, Option.any_eq_true, Value.equals]

namespace Store

/-- The `k`th join (from zero) reads a slot before its own, and its own slot holds a stored
row of its target linked to the row it reads. -/
def Joined (s : Store) (j : Join) (k : ℕ) (tuple : Tuple) : Prop :=
  j.sourceSlot < k + 1 ∧ ∃ source target, tuple[j.sourceSlot]? = some source ∧
    tuple[k + 1]? = some target ∧ target ∈ s.rows j.target.name ∧
      j.relation.Links source target

/-- A tuple over the root row at a place that follows the joins. -/
structure Follows (s : Store) (root : Entity) (joins : List Join) (i : ℕ) (tuple : Tuple) :
    Prop where
  length : tuple.length = joins.length + 1
  start : ∃ row, (s.rows root.name)[i]? = some row ∧ tuple[0]? = some row
  joined : ∀ k j, joins[k]? = some j → s.Joined j k tuple

/-- A tuple that follows the joins of a plan and satisfies its clauses. -/
structure Answers (s : Store) (p : Plan) (i : ℕ) (tuple : Tuple) : Prop extends
    s.Follows p.root p.joins.joins i tuple where
  clauses : ∀ e ∈ p.filters, e.holds tuple = true

variable {s : Store} {root : Entity} {joins : List Join} {j : Join} {i k : ℕ} {tuple : Tuple}

/-- A row at the end of the tuple does not concern a join before it. -/
theorem joined_append (row : FieldMap) (hk : k + 1 < tuple.length) :
    s.Joined j k (tuple ++ [row]) ↔ s.Joined j k tuple := by
  unfold Joined
  constructor
  · rintro ⟨hlt, source, target, hs, ht, h⟩
    rw [List.getElem?_append_left (by omega)] at hs ht
    exact ⟨hlt, source, target, hs, ht, h⟩
  · rintro ⟨hlt, source, target, hs, ht, h⟩
    rw [← List.getElem?_append_left (by omega)] at hs ht
    exact ⟨hlt, source, target, hs, ht, h⟩

/-- The last join concerns the last row. -/
theorem joined_last {row : FieldMap} (hlen : tuple.length = k + 1) :
    s.Joined j k (tuple ++ [row]) ↔
      row ∈ s.rows j.target.name ∧ j.pairs tuple row = true := by
  have hrow : (tuple ++ [row])[k + 1]? = some row := by
    rw [List.getElem?_append_right (by omega), hlen, Nat.sub_self]
    rfl
  rw [Join.pairs_iff]
  unfold Joined
  constructor
  · rintro ⟨hlt, source, target, hs, ht, hmem, hl⟩
    rw [hrow, Option.some.injEq] at ht
    subst ht
    rw [List.getElem?_append_left (by omega)] at hs
    exact ⟨hmem, source, hs, hl⟩
  · rintro ⟨hmem, source, hs, hl⟩
    have hlt : j.sourceSlot < tuple.length := (List.getElem?_eq_some_iff.mp hs).1
    refine ⟨by omega, source, row, ?_, hrow, hmem, hl⟩
    rw [List.getElem?_append_left hlt, hs]

/-- One more join asks for one more row, paired with the tuple before it. -/
theorem follows_append_iff {final : Tuple} :
    s.Follows root (joins ++ [j]) i final ↔
      ∃ tuple row, s.Follows root joins i tuple ∧ row ∈ s.rows j.target.name ∧
        j.pairs tuple row = true ∧ tuple ++ [row] = final := by
  constructor
  · rintro ⟨hlen, ⟨first, hi, h0⟩, hj⟩
    rw [List.length_append, List.length_singleton] at hlen
    obtain ⟨tuple, row, rfl⟩ : ∃ tuple row, final = tuple ++ [row] :=
      ⟨final.dropLast, final.getLast (by rintro rfl; simp at hlen),
        (List.dropLast_concat_getLast _).symm⟩
    rw [List.length_append, List.length_singleton] at hlen
    have hlast := hj joins.length j (by simp)
    rw [joined_last (by omega)] at hlast
    refine ⟨tuple, row, ⟨by omega, ⟨first, hi, ?_⟩, fun k j' hk => ?_⟩, hlast.1, hlast.2, rfl⟩
    · rwa [List.getElem?_append_left (by omega)] at h0
    · have hlt : k < joins.length := (List.getElem?_eq_some_iff.mp hk).1
      apply (joined_append row (by omega)).mp
      exact hj k j' (by rwa [List.getElem?_append_left hlt])
  · rintro ⟨tuple, row, ⟨hlen, ⟨first, hi, h0⟩, hj⟩, hmem, hp, rfl⟩
    refine ⟨by simp [hlen], ⟨first, hi, ?_⟩, fun k j' hk => ?_⟩
    · rwa [List.getElem?_append_left (by omega)]
    · rcases Nat.lt_trichotomy k joins.length with hlt | rfl | hgt
      · rw [List.getElem?_append_left hlt] at hk
        exact (joined_append row (by omega)).mpr (hj k j' hk)
      · rw [List.getElem?_append_right (Nat.le_refl _), Nat.sub_self] at hk
        obtain rfl : j = j' := by simpa using hk
        exact (joined_last hlen).mpr ⟨hmem, hp⟩
      · rw [List.getElem?_eq_none (by simp; omega)] at hk
        cases hk

/-! ### Candidates -/

theorem candidates_append (s : Store) (root : Entity) (joins : List Join) (j : Join) :
    s.candidates root (joins ++ [j]) = s.innerJoin (s.candidates root joins) j := by
  unfold candidates
  rw [List.foldl_append, List.foldl_cons, List.foldl_nil]

theorem mem_scan {c : Candidate} :
    c ∈ s.scan root ↔ ∃ row, (s.rows root.name)[c.index]? = some row ∧ c.tuple = [row] := by
  unfold scan
  rw [List.mem_mapIdx]
  constructor
  · rintro ⟨i, hi, rfl⟩
    exact ⟨_, List.getElem?_eq_getElem hi, rfl⟩
  · rintro ⟨row, hrow, ht⟩
    obtain ⟨hi, rfl⟩ := List.getElem?_eq_some_iff.mp hrow
    exact ⟨c.index, hi, by rw [Candidate.start, ← ht]⟩

theorem mem_innerJoin {cs : List Candidate} {c : Candidate} :
    c ∈ s.innerJoin cs j ↔
      ∃ b ∈ cs, ∃ row ∈ s.rows j.target.name, j.pairs b.tuple row = true ∧ b.extend row = c := by
  simp only [innerJoin, List.mem_flatMap, List.mem_map, List.mem_filter, and_assoc]

/-- The loops find exactly the tuples that follow the joins. -/
theorem mem_candidates {c : Candidate} :
    c ∈ s.candidates root joins ↔ s.Follows root joins c.index c.tuple := by
  induction joins using List.reverseRecOn generalizing c with
  | nil =>
    rw [candidates, List.foldl_nil, mem_scan]
    constructor
    · rintro ⟨row, hrow, ht⟩
      exact ⟨by simp [ht], ⟨row, hrow, by simp [ht]⟩, by simp⟩
    · rintro ⟨hlen, ⟨row, hrow, h0⟩, -⟩
      obtain ⟨first, ht⟩ := List.length_eq_one_iff.mp hlen
      rw [ht, List.getElem?_cons_zero, Option.some.injEq] at h0
      exact ⟨row, hrow, by rw [ht, h0]⟩
  | append_singleton joins j ih =>
    rw [candidates_append, mem_innerJoin, follows_append_iff]
    constructor
    · rintro ⟨b, hb, row, hrow, hp, rfl⟩
      exact ⟨b.tuple, row, ih.mp hb, hrow, hp, rfl⟩
    · rintro ⟨tuple, row, hf, hrow, hp, ht⟩
      exact ⟨⟨c.index, tuple⟩, ih.mpr hf, row, hrow, hp, by rw [Candidate.extend, ht]⟩

/-- Candidates in the order of their root rows. -/
def Grouped (cs : List Candidate) : Prop := cs.Pairwise fun a b => a.index ≤ b.index

theorem grouped_scan (s : Store) (root : Entity) : Grouped (s.scan root) := by
  unfold Grouped scan
  rw [List.pairwise_iff_getElem]
  intro i k hi hk hlt
  simp only [List.getElem_mapIdx, Candidate.start]
  omega

/-- Extensions of one candidate stay together, so a join keeps the order. -/
theorem grouped_innerJoin {cs : List Candidate} (s : Store) (j : Join) (h : Grouped cs) :
    Grouped (s.innerJoin cs j) := by
  unfold Grouped innerJoin
  rw [List.pairwise_flatMap]
  constructor
  · intro c _
    rw [List.pairwise_map]
    exact List.pairwise_of_forall fun _ _ => Nat.le_refl _
  · apply h.imp
    intro a b hab x hx y hy
    obtain ⟨_, -, rfl⟩ := List.mem_map.mp hx
    obtain ⟨_, -, rfl⟩ := List.mem_map.mp hy
    exact hab

theorem grouped_candidates (s : Store) (root : Entity) (joins : List Join) :
    Grouped (s.candidates root joins) := by
  induction joins using List.reverseRecOn with
  | nil => exact grouped_scan s root
  | append_singleton joins j ih =>
    rw [candidates_append]
    exact grouped_innerJoin s j ih

/-! ### Selected places -/

theorem positions_pairwise (s : Store) (p : Plan) : (s.positions p).Pairwise (· < ·) := by
  unfold positions matching
  apply eraseDups_pairwise_lt
  rw [List.pairwise_map]
  exact (grouped_candidates s p.root p.joins.joins).sublist List.filter_sublist

/-- Places increase, so they come in the order of any others among which they are. -/
theorem positions_sublist_of_subset {s t : Store} {p q : Plan}
    (h : s.positions p ⊆ t.positions q) : (s.positions p).Sublist (t.positions q) := by
  have hp := positions_pairwise s p
  exact List.sublist_of_subperm_of_pairwise (List.subperm_of_subset hp.nodup h) hp
    (positions_pairwise t q)

theorem predicate_holds_iff (p : Plan) (tuple : Tuple) :
    p.predicate?.all (Expr.holds tuple) = true ↔ ∀ e ∈ p.filters, e.holds tuple = true := by
  rw [Plan.predicate?, Expr.all_allOf, List.all_eq_true]

/-- A place is selected when a tuple over its row answers the plan. -/
theorem mem_positions {p : Plan} : i ∈ s.positions p ↔ ∃ tuple, s.Answers p i tuple := by
  simp only [positions, matching, List.mem_eraseDups, List.mem_map, List.mem_filter,
    mem_candidates, predicate_holds_iff]
  constructor
  · rintro ⟨c, ⟨hf, hc⟩, rfl⟩
    exact ⟨c.tuple, hf, hc⟩
  · rintro ⟨tuple, hf, hc⟩
    exact ⟨⟨i, tuple⟩, ⟨hf, hc⟩, rfl⟩

theorem isSome_of_mem_positions {p : Plan} (h : i ∈ s.positions p) :
    ((s.rows p.root.name)[i]?).isSome := by
  obtain ⟨tuple, ht⟩ := mem_positions.mp h
  obtain ⟨row, hrow, -⟩ := ht.start
  rw [hrow]
  rfl

/-- No selected place is lost on the way to its row. -/
theorem execute_map_some (s : Store) (p : Plan) :
    (s.execute p).map some = (s.positions p).map fun i => (s.rows p.root.name)[i]? := by
  have h : ∀ is : List ℕ, (∀ i ∈ is, ((s.rows p.root.name)[i]?).isSome) →
      (is.filterMap fun i => (s.rows p.root.name)[i]?).map some
        = is.map fun i => (s.rows p.root.name)[i]? := by
    intro is
    induction is with
    | nil => intro _; rfl
    | cons i is ih =>
      intro his
      obtain ⟨row, hrow⟩ := Option.isSome_iff_exists.mp (his i List.mem_cons_self)
      rw [List.filterMap_cons_some hrow, List.map_cons, List.map_cons, hrow,
        ih fun k hk => his k (List.mem_cons_of_mem _ hk)]
  exact h _ fun i hi => isSome_of_mem_positions hi

/-- Where the row alone decides whether a place has an answer, execution filters the rows. -/
theorem execute_eq_filter {p : Plan} {test : FieldMap → Bool}
    (h : ∀ i row, (s.rows p.root.name)[i]? = some row →
      ((∃ tuple, s.Answers p i tuple) ↔ test row = true)) :
    s.execute p = (s.rows p.root.name).filter test := by
  have hpositions : s.positions p = (List.range (s.rows p.root.name).length).filter fun i =>
      ((s.rows p.root.name)[i]?).any test := by
    apply List.Pairwise.eq_of_mem_iff (positions_pairwise s p)
    · exact List.pairwise_lt_range.sublist List.filter_sublist
    · intro i
      rw [mem_positions, List.mem_filter, List.mem_range]
      constructor
      · rintro ⟨tuple, ht⟩
        obtain ⟨row, hrow, -⟩ := ht.start
        have hi := (List.getElem?_eq_some_iff.mp hrow).1
        refine ⟨hi, ?_⟩
        rw [hrow]
        exact (h i row hrow).mp ⟨tuple, ht⟩
      · rintro ⟨hi, htest⟩
        have hrow := List.getElem?_eq_getElem hi
        rw [hrow] at htest
        exact (h i _ hrow).mpr htest
  rw [execute, hpositions]
  generalize s.rows p.root.name = rows
  have hrows : (List.range rows.length).map (fun i => rows[i]?) = rows.map some := by
    apply List.ext_getElem
    · simp
    · intro i hi hi'
      simp at hi
      simp [hi]
  calc ((List.range rows.length).filter fun i => (rows[i]?).any test).filterMap (rows[·]?)
      = (List.range rows.length).filterMap fun i => (rows[i]?).filter test := by
        rw [List.filterMap_filter]
        congr 1
        funext i
        cases rows[i]? <;> rfl
    _ = (rows.map some).filterMap (Option.filter test) := by rw [← hrows, List.filterMap_map]; rfl
    _ = rows.filter test := by rw [List.filterMap_map, ← List.filterMap_eq_filter]; rfl

/-- Without joins a clause reads the root row alone. -/
theorem execute_of_no_joins {p : Plan} (h : p.joins.joins = []) (s : Store) :
    s.execute p = (s.rows p.root.name).filter fun row => p.filters.all (Expr.holds [row]) := by
  apply execute_eq_filter
  intro i row hrow
  rw [List.all_eq_true]
  constructor
  · rintro ⟨tuple, ⟨hlen, ⟨first, hfirst, h0⟩, -⟩, hclauses⟩
    rw [h] at hlen
    obtain ⟨only, rfl⟩ := List.length_eq_one_iff.mp hlen
    rw [hrow, Option.some.injEq] at hfirst
    rw [List.getElem?_cons_zero, Option.some.injEq, ← hfirst] at h0
    rwa [h0] at hclauses
  · intro hclauses
    exact ⟨[row], ⟨by rw [h]; rfl, ⟨row, hrow, rfl⟩, by simp [h]⟩, hclauses⟩

/-- Of the clauses only their common truth matters. -/
theorem positions_congr {p q : Plan} (hr : p.root = q.root) (hj : p.joins = q.joins)
    (hc : ∀ tuple, (∀ e ∈ p.filters, e.holds tuple = true) ↔
      ∀ e ∈ q.filters, e.holds tuple = true) (s : Store) : s.positions p = s.positions q := by
  have hm : s.matching p = s.matching q := by
    unfold matching
    rw [hr, hj]
    apply List.filter_congr
    intro c _
    rw [Bool.eq_iff_iff, predicate_holds_iff, predicate_holds_iff]
    exact hc c.tuple
  rw [positions, positions, hm]

theorem execute_congr {p q : Plan} (hr : p.root = q.root) (hj : p.joins = q.joins)
    (hc : ∀ tuple, (∀ e ∈ p.filters, e.holds tuple = true) ↔
      ∀ e ∈ q.filters, e.holds tuple = true) (s : Store) : s.execute p = s.execute q := by
  rw [execute, execute, positions_congr hr hj hc, hr]

/-- Execution returns the root rows at increasing places, and these are exactly the places
over which some tuple follows the joins and satisfies the clauses. -/
theorem execute_correct (s : Store) (p : Plan) :
    (s.execute p).map some = (s.positions p).map (fun i => (s.rows p.root.name)[i]?) ∧
      (s.positions p).Pairwise (· < ·) ∧
        ∀ i, i ∈ s.positions p ↔ ∃ tuple, s.Answers p i tuple :=
  ⟨execute_map_some s p, positions_pairwise s p, fun _ => mem_positions⟩

end Store

end PathQuery
