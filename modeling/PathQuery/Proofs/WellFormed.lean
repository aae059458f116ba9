import PathQuery.Proofs.NestedLoop
import PathQuery.Proofs.Resolution
import PathQuery.Specimen.Entities

/-! Well-formed plans. Joins are in slots counted from one, each after the slot it reads, and
that slot holds a row of the entity whose relationship the join follows; a clause reads an
attribute that the entity in its slot has. Every step that takes a hop from a reached entity
keeps this, so it holds of all plans that searches make, and no tuple is read past its end
while such a plan runs. -/

namespace PathQuery

open Comparison (allHops)

/-- The columns that the comparisons inside an expression read. -/
inductive Expr.Reads : Expr → Column → Prop
  | compare (column : Column) (op : CompareOp) (value : Value) :
    Reads (.compare column op value) column
  | and {parts : List Expr} {e : Expr} {column : Column} (he : e ∈ parts)
    (h : Reads e column) : Reads (.and parts) column
  | or {parts : List Expr} {e : Expr} {column : Column} (he : e ∈ parts)
    (h : Reads e column) : Reads (.or parts) column
  | not {e : Expr} {column : Column} (h : Reads e column) : Reads (.not e) column

namespace JoinSet

/-- The name of the entity whose row is in a slot. -/
def nameAt? (root : Entity) (s : JoinSet) : ℕ → Option String
  | 0 => some root.name
  | k + 1 => (s.joins[k]?).map fun j => j.target.name

/-- What holds of the `k`th join (from zero). -/
structure Placed (schema : Schema) (root : Entity) (s : JoinSet) (k : ℕ) (j : Join) : Prop where
  slot : j.slot = k + 1
  earlier : j.sourceSlot < k + 1
  source : s.nameAt? root j.sourceSlot = some j.source.name
  relation : j.source.relation? j.name = some j.relation
  target : j.target = schema.target j.relation

structure WellFormed (schema : Schema) (root : Entity) (s : JoinSet) : Prop where
  placed : ∀ k j, s.joins[k]? = some j → s.Placed schema root k j
  distinct : (s.joins.map fun j => j.target.name).Nodup

variable {schema : Schema} {root : Entity} {s t : JoinSet} {e : Entity} {origin : Option Entity}

theorem wellFormed_empty (schema : Schema) (root : Entity) :
    (∅ : JoinSet).WellFormed schema root :=
  ⟨fun _ _ h => (by cases h), List.nodup_nil⟩

theorem nameAt?_stable {slot : ℕ} {name : String} (hp : s.joins <+: t.joins)
    (h : s.nameAt? root slot = some name) : t.nameAt? root slot = some name := by
  cases slot with
  | zero => exact h
  | succ k =>
    rw [nameAt?, Option.map_eq_some_iff] at h
    obtain ⟨j, hj, hname⟩ := h
    obtain ⟨more, hmore⟩ := hp
    have hlt : k < s.joins.length := (List.getElem?_eq_some_iff.mp hj).1
    rw [nameAt?, ← hmore, List.getElem?_append_left hlt, hj, Option.map_some, hname]

theorem le_size_of_nameAt? {slot : ℕ} {name : String} (h : s.nameAt? root slot = some name) :
    slot ≤ s.size := by
  cases slot with
  | zero => exact Nat.zero_le _
  | succ k =>
    rw [nameAt?, Option.map_eq_some_iff] at h
    obtain ⟨j, hj, -⟩ := h
    exact (List.getElem?_eq_some_iff.mp hj).1

theorem Placed.mono {k : ℕ} {j : Join} (hp : s.joins <+: t.joins)
    (h : s.Placed schema root k j) : t.Placed schema root k j :=
  { h with source := nameAt?_stable hp h.source }

/-- The join that reaches an entity, and where it is. -/
theorem exists_join_of_slotOf? {slot : ℕ} (h : s.slotOf? e = some slot) :
    ∃ (k : ℕ) (j : Join), s.joins[k]? = some j ∧ j.target.name = e.name ∧ j.slot = slot := by
  unfold slotOf? at h
  rw [Option.map_eq_some_iff] at h
  obtain ⟨j, hj, hslot⟩ := h
  obtain ⟨k, hk⟩ := List.mem_iff_getElem?.mp (List.mem_of_find?_eq_some hj)
  have hname : j.target.is e = true := by simpa using List.find?_some hj
  exact ⟨k, j, hk, Entity.is_iff.mp hname, hslot⟩

theorem WellFormed.nameAt?_slotOf? (h : s.WellFormed schema root) {slot : ℕ}
    (hs : s.slotOf? e = some slot) : s.nameAt? root slot = some e.name := by
  obtain ⟨k, j, hk, hname, rfl⟩ := exists_join_of_slotOf? hs
  rw [(h.placed k j hk).slot, nameAt?, hk, Option.map_some, hname]

/-- The slot of a reached entity holds its rows. -/
theorem WellFormed.nameAt?_slotAt (h : s.WellFormed schema root) (ho : s.Reaches origin) :
    s.nameAt? root (s.slotAt origin) = some (origin.getD root).name := by
  cases origin with
  | none => rfl
  | some e =>
    obtain ⟨slot, hs⟩ := Option.isSome_iff_exists.mp (ho e rfl)
    have hname := h.nameAt?_slotOf? hs
    rw [slotAt, hs]
    exact hname

end JoinSet

/-- A hop that a walk can take: its source declares the relationship and is the root entity
or one that the set reaches. -/
structure Hop.Sound (schema : Schema) (root : Entity) (s : JoinSet) (h : Hop) : Prop where
  relation : h.source.relation? h.name = some h.relation
  target : h.target = schema.target h.relation
  source : h.source = h.origin.getD root
  reached : s.Reaches h.origin

namespace JoinSet

variable {schema : Schema} {root : Entity} {s : JoinSet} {e f : Entity} {h : Hop}

theorem contains_eq_false_iff :
    s.contains e = false ↔ ∀ j ∈ s.joins, j.target.name ≠ e.name := by
  rw [contains, slotOf?, Option.isSome_map, Option.isSome_eq_false_iff, Option.isNone_iff_eq_none,
    List.find?_eq_none]
  simp only [Entity.is_iff, ne_eq]

/-- The join that a new hop brings goes last. -/
theorem joins_takeHop_of_new (hn : s.contains h.target = false) :
    (s.takeHop h).joins = s.joins ++
      [⟨h.source, s.slotAt h.origin, h.name, h.relation, h.target, s.size + 1⟩] := by
  have hs : s.slotOf?
      (Join.step h.source (s.slotAt h.origin) h.name h.relation h.target).target = none := by
    simpa [contains, Join.step] using hn
  rw [takeHop, insert_of_new hs]
  rfl

theorem contains_congr (h : e.name = f.name) : s.contains e = s.contains f := by
  simp only [contains, slotOf?, Entity.is, h]

/-- A hop brings the name of its target and no other. -/
theorem contains_takeHop_iff :
    (s.takeHop h).contains e = true ↔ s.contains e = true ∨ e.name = h.target.name := by
  constructor
  · intro he
    cases hc : s.contains h.target with
    | true =>
      rw [takeHop_of_contains hc] at he
      exact .inl he
    | false =>
      by_contra hnone
      rw [not_or, Bool.not_eq_true, contains_eq_false_iff] at hnone
      have hfalse : (s.takeHop h).contains e = false := by
        rw [contains_eq_false_iff, joins_takeHop_of_new hc, List.forall_mem_append,
          List.forall_mem_singleton]
        exact ⟨hnone.1, Ne.symm hnone.2⟩
      rw [hfalse] at he
      cases he
  · rintro (he | he)
    · exact contains_mono (prefix_takeHop s h) he
    · rw [contains_congr he]
      exact contains_takeHop s h

theorem WellFormed.takeHop (hs : s.WellFormed schema root) (hh : h.Sound schema root s) :
    (s.takeHop h).WellFormed schema root := by
  cases hc : s.contains h.target with
  | true => rwa [takeHop_of_contains hc]
  | false =>
    have hjoins := joins_takeHop_of_new hc
    have hp := prefix_takeHop s h
    have hname := hs.nameAt?_slotAt hh.reached
    constructor
    · intro k j hk
      rw [hjoins] at hk
      rcases Nat.lt_trichotomy k s.joins.length with hlt | rfl | hgt
      · rw [List.getElem?_append_left hlt] at hk
        exact (hs.placed k j hk).mono hp
      · rw [List.getElem?_append_right (Nat.le_refl _), Nat.sub_self, List.getElem?_cons_zero,
          Option.some.injEq] at hk
        subst hk
        refine ⟨rfl, ?_, ?_, hh.relation, hh.target⟩
        · exact Nat.lt_succ_of_le (le_size_of_nameAt? hname)
        · have hsource := nameAt?_stable hp hname
          rwa [← hh.source] at hsource
      · rw [List.getElem?_eq_none (by simp; omega)] at hk
        cases hk
    · have hnew := contains_eq_false_iff.mp hc
      rw [hjoins, List.map_append, List.nodup_append]
      refine ⟨hs.distinct, List.pairwise_singleton _ _, ?_⟩
      intro name hm other ho
      obtain ⟨j, hj, rfl⟩ := List.mem_map.mp hm
      rw [List.map_singleton, List.mem_singleton] at ho
      subst ho
      exact hnew j hj

/-- What sound hops keep is kept along a route. -/
theorem takeHops_route_induct {P : JoinSet → Prop} {all : List Hop}
    (step : ∀ s, ∀ h ∈ all, h.Sound schema root s → P s → P (s.takeHop h)) (names : List String) :
    ∀ (origin : Option Entity) (hops : List Hop) (s : JoinSet), P s → s.Reaches origin →
      (∀ h ∈ hops, h ∈ all) → route schema origin (origin.getD root) names = .ok hops →
        P (s.takeHops hops) := by
  induction names with
  | nil =>
    intro origin hops s hs _ _ hr
    cases hr
    exact hs
  | cons name names ih =>
    intro origin hops s hs ho hall hr
    rw [route] at hr
    cases hrel : (origin.getD root).relation? name with
    | none => rw [hrel] at hr; cases hr
    | some relation =>
      simp only [hrel] at hr
      obtain ⟨rest, hrest, rfl⟩ := map_eq_ok.mp hr
      let h : Hop := ⟨origin, origin.getD root, name, relation, schema.target relation⟩
      have hnext := step s h (hall h List.mem_cons_self) ⟨hrel, rfl, rfl, ho⟩ hs
      apply ih (some h.target) rest (s.takeHop h) hnext
      · exact reaches_some.mpr (contains_takeHop s h)
      · exact fun g hg => hall g (List.mem_cons_of_mem _ hg)
      · exact hrest

end JoinSet

namespace Comparison

/-- A comparison that some entry of criteria asks for. -/
def Resolved (schema : Schema) (root : Entity) (c : Comparison) : Prop :=
  ∃ entry, ofEntry schema root entry = .ok c

variable {schema : Schema} {root : Entity} {c : Comparison}

theorem Resolved.parts (h : c.Resolved schema root) :
    (∃ names, route schema none root names = .ok c.hops) ∧ c.entity = arrival root c.hops ∧
      (c.entity.scalar? c.field).isSome := by
  obtain ⟨entry, h⟩ := h
  unfold ofEntry at h
  obtain ⟨path, -, h⟩ := bind_eq_ok.mp h
  obtain ⟨hops, hr, h⟩ := bind_eq_ok.mp h
  obtain ⟨kind, hk, h⟩ := bind_eq_ok.mp h
  obtain ⟨_, -, h⟩ := bind_eq_ok.mp h
  cases h
  refine ⟨⟨path.hops, hr⟩, rfl, ?_⟩
  unfold Entity.comparable at hk
  cases hs : (arrival root hops).scalar? path.field with
  | none => rw [hs] at hk; simp only at hk; split at hk <;> cases hk
  | some _ => rfl

end Comparison

/-- What sound hops keep is kept by the hops of comparisons. -/
theorem JoinSet.takeHops_induct {schema : Schema} {root : Entity} {P : JoinSet → Prop}
    {cs : List Comparison} (hcs : ∀ c ∈ cs, c.Resolved schema root)
    (step : ∀ s, ∀ h ∈ allHops cs, h.Sound schema root s → P s → P (s.takeHop h))
    (s : JoinSet) (hs : P s) : P (s.takeHops (allHops cs)) := by
  have hrun : ∀ (ds : List Comparison) (s : JoinSet), (∀ c ∈ ds, c ∈ cs) → P s →
      P (s.takeHops (allHops ds)) := by
    intro ds
    induction ds with
    | nil => intro s _ hs; exact hs
    | cons c ds ih =>
      intro s hds hs
      have hc : c ∈ cs := hds c List.mem_cons_self
      obtain ⟨names, hr⟩ := (hcs c hc).parts.1
      rw [allHops, List.flatMap_cons, takeHops_append]
      apply ih _ (fun d hd => hds d (List.mem_cons_of_mem _ hd))
      apply takeHops_route_induct step names none c.hops s hs (reaches_none s) _ hr
      exact fun h hh => List.mem_flatMap.mpr ⟨c, hc, hh⟩
  exact hrun cs s (fun _ hc => hc) hs

/-! ### Where comparisons come from -/

variable {schema : Schema} {root : Entity} {s : JoinSet} {k : Comparison} {column : Column}

theorem Criteria.resolved_of_mem {c : Criteria} (hk : k ∈ c.comparisons schema root) :
    k.Resolved schema root := by
  obtain ⟨entry, -, he⟩ := List.mem_filterMap.mp hk
  exact ⟨entry, toOption_eq_some.mp he⟩

theorem Search.resolved_of_mem {q : Search} (hk : k ∈ q.comparisons schema root) :
    k.Resolved schema root := by
  rcases List.mem_append.mp hk with hk | hk
  · obtain ⟨c, -, hk⟩ := List.mem_flatMap.mp hk
    obtain ⟨leaf, -, hk⟩ := List.mem_flatMap.mp hk
    exact Criteria.resolved_of_mem hk
  · exact Criteria.resolved_of_mem hk

theorem Comparison.eq_of_reads (h : (k.expr s).Reads column) : column = k.column s := by
  cases h
  rfl

theorem Expr.reads_allOf {es : List Expr} (h : ((allOf es).getD (.and [])).Reads column) :
    ∃ e ∈ es, e.Reads column := by
  match es with
  | [] => obtain _ | ⟨he, _⟩ := h; cases he
  | [e] => exact ⟨e, List.mem_singleton_self e, h⟩
  | e :: f :: rest => obtain _ | ⟨he, hr⟩ := h; exact ⟨_, he, hr⟩

namespace Condition

variable {left right : Condition}

theorem exists_of_reads_branch {e : Expr}
    (hl : (left.expr schema root s).Reads column →
      ∃ k ∈ left.comparisons schema root, column = k.column s)
    (hr : (right.expr schema root s).Reads column →
      ∃ k ∈ right.comparisons schema root, column = k.column s)
    (he : e ∈ [left.expr schema root s, right.expr schema root s]) (h : e.Reads column) :
    ∃ k ∈ left.comparisons schema root ++ right.comparisons schema root, column = k.column s := by
  rcases List.mem_cons.mp he with rfl | he
  · obtain ⟨k, hk, hc⟩ := hl h
    exact ⟨k, List.mem_append_left _ hk, hc⟩
  · obtain rfl := List.mem_singleton.mp he
    obtain ⟨k, hk, hc⟩ := hr h
    exact ⟨k, List.mem_append_right _ hk, hc⟩

/-- A condition reads what its comparisons read. -/
theorem exists_of_reads {c : Condition} (h : (c.expr schema root s).Reads column) :
    ∃ k ∈ c.comparisons schema root, column = k.column s := by
  induction c with
  | leaf criteria =>
    obtain ⟨e, he, hr⟩ := Expr.reads_allOf h
    obtain ⟨k, hk, rfl⟩ := List.mem_map.mp he
    exact ⟨k, by rwa [comparisons_leaf], k.eq_of_reads hr⟩
  | and left right ihl ihr =>
    obtain _ | ⟨he, hr⟩ := h
    rw [comparisons_and]
    exact exists_of_reads_branch ihl ihr he hr
  | or left right ihl ihr =>
    obtain _ | _ | ⟨he, hr⟩ := h
    rw [comparisons_or]
    exact exists_of_reads_branch ihl ihr he hr
  | not inner ih =>
    obtain _ | _ | _ | hr := h
    exact ih hr

end Condition

theorem Search.exists_of_reads {q : Search} {e : Expr} (he : e ∈ q.exprs schema root s)
    (h : e.Reads column) : ∃ k ∈ q.comparisons schema root, column = k.column s := by
  rcases List.mem_append.mp he with he | he
  · obtain ⟨c, hc, rfl⟩ := List.mem_map.mp he
    obtain ⟨k, hk, hcol⟩ := Condition.exists_of_reads h
    exact ⟨k, List.mem_append_left _ (List.mem_flatMap.mpr ⟨c, hc, hk⟩), hcol⟩
  · obtain ⟨k, hk, rfl⟩ := List.mem_map.mp he
    exact ⟨k, List.mem_append_right _ hk, k.eq_of_reads h⟩

/-! ### Plans -/

namespace Plan

/-- Joins in place, and clauses that read attributes of the entities in their slots. -/
structure WellFormed (schema : Schema) (p : Plan) : Prop where
  joins : p.joins.WellFormed schema p.root
  columns : ∀ e ∈ p.filters, ∀ column, e.Reads column →
    p.joins.nameAt? p.root column.slot = some column.entity.name ∧
      (column.entity.scalar? column.field).isSome

/-- The plans made by refining with conditions, criteria and searches, whether the steps
succeed or fail. -/
inductive Reachable (schema : Schema) (root : Entity) : Plan → Prop
  | all : Reachable schema root (Plan.all root)
  | build {search : Search} {p : Plan} (h : Plan.build schema root search = .ok p) :
    Reachable schema root p
  | step {p : Plan} (step : Refinement) (hs : ∀ e, step ≠ .clause e)
    (h : Reachable schema root p) : Reachable schema root (p.advance schema step)

variable {p q : Plan}

theorem Reachable.foldl_advance (h : p.Reachable schema root) {steps : List Refinement}
    (hs : ∀ step ∈ steps, ∀ e, step ≠ .clause e) :
    (steps.foldl (Plan.advance schema) p).Reachable schema root := by
  induction steps generalizing p with
  | nil => exact h
  | cons step steps ih =>
    have hnext := h.step step (hs step List.mem_cons_self)
    exact ih hnext fun other ho => hs other (List.mem_cons_of_mem _ ho)

theorem wellFormed_all (schema : Schema) (root : Entity) : (all root).WellFormed schema :=
  ⟨JoinSet.wellFormed_empty schema root, fun _ he => (by cases he)⟩

/-- A comparison that compiles reads an attribute of the entity in its slot. -/
theorem nameAt?_column (hs : s.WellFormed schema root) (hk : k.Resolved schema root)
    (hr : s.Reaches k.reached) :
    s.nameAt? root (k.column s).slot = some (k.column s).entity.name ∧
      ((k.column s).entity.scalar? (k.column s).field).isSome := by
  obtain ⟨-, hentity, hscalar⟩ := hk.parts
  refine ⟨?_, hscalar⟩
  have hname := hs.nameAt?_slotAt hr
  have harrival : k.entity = k.reached.getD root := hentity.trans (arrival_eq root k.hops)
  rwa [← harrival] at hname

theorem WellFormed.refine_search (hp : p.WellFormed schema) {search : Search}
    (h : p.refine schema (.search search) = .ok q) : q.WellFormed schema ∧ q.root = p.root := by
  obtain rfl := refine_search_eq_ok h
  have hresolved : ∀ c ∈ search.comparisons schema p.root, c.Resolved schema p.root :=
    fun _ hc => Search.resolved_of_mem hc
  have hjoins := JoinSet.takeHops_induct hresolved (fun _ _ _ hh hs => hs.takeHop hh)
    p.joins hp.joins
  refine ⟨⟨hjoins, fun e he column hr => ?_⟩, rfl⟩
  rcases List.mem_append.mp he with he | he
  · obtain ⟨hname, hscalar⟩ := hp.columns e he column hr
    exact ⟨JoinSet.nameAt?_stable (JoinSet.prefix_takeHops _ _) hname, hscalar⟩
  · obtain ⟨k, hk, rfl⟩ := Search.exists_of_reads he hr
    apply nameAt?_column hjoins (hresolved k hk)
    exact (JoinSet.covers_takeHops p.joins _).reaches hk

/-- A condition is a search of one part. -/
theorem refine_search_condition (schema : Schema) (p : Plan) (c : Condition) :
    p.refine schema (.search ⟨[c], ∅⟩) = p.refine schema (.condition c) := by
  have hempty : ∀ q : Plan, outcome (applyCriteriaM schema ∅) q = .ok ((), q) := by
    intro q
    rw [applyCriteriaM, outcome_grow]
    change Except.ok ((), { q with filters := q.filters ++ [] }) = _
    rw [List.append_nil]
  rw [refine, refine, refineM, refineM, applySearchM, outcome_staged, outcome_bind]
  simp only [hempty, List.forM, outcome_bind]
  cases outcome (applyM schema c) p <;> rfl

/-- Criteria are a search without conditions. -/
theorem refine_search_criteria (schema : Schema) (p : Plan) (c : Criteria) :
    p.refine schema (.search ⟨[], c⟩) = p.refine schema (.criteria c) := by
  rw [refine, refine, refineM, refineM, applySearchM, outcome_staged, outcome_bind]
  rfl

/-- Conditions and criteria are searches of one part. -/
theorem exists_search {step : Refinement} (hs : ∀ e, step ≠ .clause e) (schema : Schema) :
    ∃ search, ∀ p : Plan, p.refine schema step = p.refine schema (.search search) := by
  cases step with
  | condition c => exact ⟨⟨[c], ∅⟩, fun p => (refine_search_condition schema p c).symm⟩
  | criteria c => exact ⟨⟨[], c⟩, fun p => (refine_search_criteria schema p c).symm⟩
  | search search => exact ⟨search, fun _ => rfl⟩
  | clause e => exact absurd rfl (hs e)

/-- A step keeps a plan well formed and its root, also one that fails. -/
theorem WellFormed.advance (hp : p.WellFormed schema) {step : Refinement}
    (hs : ∀ e, step ≠ .clause e) :
    (p.advance schema step).WellFormed schema ∧ (p.advance schema step).root = p.root := by
  obtain ⟨search, hsearch⟩ := exists_search hs schema
  rw [advance_eq, hsearch]
  cases h : p.refine schema (.search search) with
  | error _ => exact ⟨hp, rfl⟩
  | ok q => exact hp.refine_search h

theorem Reachable.wellFormed (h : p.Reachable schema root) :
    p.WellFormed schema ∧ p.root = root := by
  induction h with
  | all => exact ⟨wellFormed_all schema root, rfl⟩
  | build h => exact (wellFormed_all schema root).refine_search h
  | step step hs _ ih =>
    obtain ⟨hp, hroot⟩ := ih
    obtain ⟨hq, hkeep⟩ := hp.advance hs
    exact ⟨hq, hkeep.trans hroot⟩

end Plan

namespace Store

/-- While the plan runs, joins and clauses read slots that the tuples have. -/
structure ReadsInside (s : Store) (p : Plan) : Prop where
  joins : ∀ k j, p.joins.joins[k]? = some j →
    ∀ c ∈ s.candidates p.root (p.joins.joins.take k), j.sourceSlot < c.tuple.length
  columns : ∀ c ∈ s.candidates p.root p.joins.joins,
    ∀ e ∈ p.filters, ∀ column, e.Reads column → column.slot < c.tuple.length

theorem readsInside {p : Plan} (h : p.WellFormed schema) (s : Store) : s.ReadsInside p := by
  constructor
  · intro k j hk c hc
    have hlt : k < p.joins.joins.length := (List.getElem?_eq_some_iff.mp hk).1
    have hlen := (mem_candidates.mp hc).length
    have hearlier := (h.joins.placed k j hk).earlier
    rw [List.length_take] at hlen
    omega
  · intro c hc e he column hr
    have hlen := (mem_candidates.mp hc).length
    have hle := JoinSet.le_size_of_nameAt? (h.columns e he column hr).1
    rw [JoinSet.size] at hle
    omega

end Store

/-- Every plan that can be reached is well formed, and no store makes it read past a tuple. -/
theorem Plan.reachable_wellFormed {p : Plan} (h : p.Reachable schema root) :
    p.root = root ∧ p.WellFormed schema ∧ ∀ s : Store, s.ReadsInside p :=
  ⟨h.wellFormed.2, h.wellFormed.1, Store.readsInside h.wellFormed.1⟩

namespace Specimen

open Condition (leaf)

/-- Two ways back, one to statuses and one to the root entity, then a path to nowhere, then a
search that finds its joins taken. -/
def steps : List Refinement :=
  [.condition (.or (leaf (.ofList [("status__category__statuses__name__like", .text "o%")]))
      (.not (leaf (.ofList [("status__treatments__name", .text "t1")])))),
    .criteria (.ofList [("status__category__label", .text "good"),
      ("status__nowhere__id", .uint 1)]),
    .search ⟨[leaf (.ofList [("name__not", .text "t2")])],
      .ofList [("status__category__id__lt", .int 4), ("status__id__in", .list [.uint 1])]⟩]

def refined : Plan := steps.foldl (Plan.advance Specimen.schema) (Plan.all treatment)

end Specimen

open Specimen in
/-- The step that fails leaves nothing, and the root entity has a join of its own. -/
theorem Plan.reachable_wellFormed_refined :
    refined.Reachable Specimen.schema treatment ∧
      (refined.root = treatment ∧ refined.WellFormed Specimen.schema ∧
        ∀ s : Store, s.ReadsInside refined) ∧
      refined.joins.targets = [status, category, treatment] ∧ refined.filters.length = 4 := by
  have h : refined.Reachable Specimen.schema treatment :=
    Reachable.all.foldl_advance (by simp [steps])
  exact ⟨h, reachable_wellFormed h, by decide +kernel, by decide +kernel⟩

end PathQuery
