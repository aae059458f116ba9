import Mathlib.Data.Finset.Card
import PathQuery.Proofs.Meaning
import PathQuery.Store.Backend

/-! Conditions as sets of rows. Where every hop finds exactly one partner there is nothing to
choose: the hops force one row for each entity that they reach from a root row. So a condition
is true or false of the root row alone, and conjunction, disjunction and negation select the
intersection, the union and the complement, although each condition runs by a plan with joins
and slots of its own. Without partners this fails: a row that a hop does not leave is selected
neither by a condition nor by its negation, and one that it leaves twice may be by both. -/

namespace PathQuery

open Comparison (allHops)

/-- The choice is of stored rows and follows the hops. -/
structure Choice.Along (choice : Choice) (s : Store) (row : FieldMap) (hops : List Hop) :
    Prop where
  stored : ∀ h ∈ hops, choice h.target.name ∈ s.rows h.target.name
  linked : ∀ h ∈ hops, h.relation.Links (choice.rowAt row h.origin) (choice h.target.name)

/-- Every stored row that a hop may leave has exactly one partner. -/
def Store.Partnered (s : Store) (hops : List Hop) : Prop :=
  ∀ h ∈ hops, ∀ source ∈ s.rows h.source.name,
    ∃! target, target ∈ s.rows h.target.name ∧ h.relation.Links source target

/-- One partner by count is one partner. -/
theorem Store.partnered_of_length {s : Store} {hops : List Hop}
    (h : ∀ g ∈ hops, ∀ source ∈ s.rows g.source.name,
      ((s.rows g.target.name).filter fun row => g.relation.Links source row).length = 1) :
    s.Partnered hops := by
  intro g hg source hsource
  obtain ⟨target, htarget⟩ := List.length_eq_one_iff.mp (h g hg source hsource)
  have hmem : ∀ row, row = target ↔ row ∈ s.rows g.target.name ∧ g.relation.Links source row := by
    intro row
    rw [← List.mem_singleton, ← htarget, List.mem_filter, decide_eq_true_iff]
  exact ⟨target, (hmem target).mp rfl, fun row hrow => (hmem row).mpr hrow⟩

/-- The places of the root rows that a plan selects. -/
def Store.places (s : Store) (p : Plan) : Finset ℕ := (s.positions p).toFinset

/-! ### Entities that a set reaches -/

namespace JoinSet

variable {s : JoinSet} {a b : Option Entity}

theorem reaches_congr (h : a.map Entity.name = b.map Entity.name) :
    s.Reaches a ↔ s.Reaches b := by
  cases a with
  | none => cases b <;> simp_all
  | some e =>
    cases b with
    | none => cases h
    | some f => rw [reaches_some, reaches_some, contains_congr (Option.some.inj h)]

end JoinSet

/-! ### One choice -/

namespace Choice

variable {schema : Schema} {root : Entity} {s : Store} {row : FieldMap} {k : JoinSet} {h : Hop}
  {hops more : List Hop} {choice a b : Choice} {q : Search}

theorem Along.subset (hc : choice.Along s row more) (hsub : hops ⊆ more) :
    choice.Along s row hops :=
  ⟨fun h hm => hc.stored h (hsub hm), fun h hm => hc.linked h (hsub hm)⟩

/-- A hop that a walk can take leaves a stored row. -/
theorem rowAt_mem_rows (hh : h.Sound schema root k) (hrow : row ∈ s.rows root.name)
    (hs : ∀ e, k.contains e = true → choice e.name ∈ s.rows e.name) :
    choice.rowAt row h.origin ∈ s.rows h.source.name := by
  rw [hh.source]
  cases ho : h.origin with
  | none => exact hrow
  | some e => exact hs e (hh.reached e ho)

/-- What has been chosen when the hops have brought in some joins. -/
structure UpTo (choice : Choice) (s : Store) (row : FieldMap) (hops : List Hop) (k : JoinSet) :
    Prop where
  stored : ∀ e, k.contains e = true → choice e.name ∈ s.rows e.name
  reached : ∀ g ∈ hops, k.contains g.target = true → k.Reaches g.origin
  linked : ∀ g ∈ hops, k.contains g.target = true →
    g.relation.Links (choice.rowAt row g.origin) (choice g.target.name)

/-- A hop to a new entity chooses the partner there and leaves other rows as they are. -/
theorem UpTo.takeHop (hc : choice.UpTo s row (q.hops schema root) k)
    (hu : q.Unambiguous schema root) (hs : s.Partnered (q.hops schema root))
    (hrow : row ∈ s.rows root.name) (hm : h ∈ q.hops schema root)
    (hh : h.Sound schema root k) :
    ∃ next : Choice, next.UpTo s row (q.hops schema root) (k.takeHop h) := by
  cases hk : k.contains h.target with
  | true =>
    rw [JoinSet.takeHop_of_contains hk]
    exact ⟨choice, hc⟩
  | false =>
    obtain ⟨target, ⟨htarget, hlinks⟩, -⟩ := hs h hm _ (rowAt_mem_rows hh hrow hc.stored)
    let next : Choice := Function.update choice h.target.name target
    have hnext : next h.target.name = target := Function.update_self _ _ _
    have hother : ∀ e, k.contains e = true → next e.name = choice e.name := by
      intro e he
      apply Function.update_of_ne
      intro hname
      rw [JoinSet.contains_congr hname, hk] at he
      cases he
    have hrowAt : ∀ origin, k.Reaches origin →
        next.rowAt row origin = choice.rowAt row origin := by
      intro origin ho
      cases origin with
      | none => rfl
      | some e => exact hother e (JoinSet.reaches_some.mp ho)
    have hp := JoinSet.prefix_takeHop k h
    -- a hop to the new entity leaves where this one does
    have halike : ∀ g ∈ q.hops schema root, g.target.name = h.target.name →
        g.Alike h ∧ k.Reaches g.origin := by
      intro g hg hname
      have hgh := hu g hg h hm hname
      exact ⟨hgh, (JoinSet.reaches_congr hgh.1).mpr hh.reached⟩
    refine ⟨next, ?_, ?_, ?_⟩
    · intro e he
      rcases JoinSet.contains_takeHop_iff.mp he with he | hname
      · rw [hother e he]
        exact hc.stored e he
      · rw [hname, hnext]
        exact htarget
    · intro g hg he
      rcases JoinSet.contains_takeHop_iff.mp he with he | hname
      · exact (hc.reached g hg he).mono hp
      · exact (halike g hg hname).2.mono hp
    · intro g hg he
      rcases JoinSet.contains_takeHop_iff.mp he with he | hname
      · rw [hrowAt _ (hc.reached g hg he), hother _ he]
        exact hc.linked g hg he
      · obtain ⟨⟨horigin, hlocal, hremote⟩, hreached⟩ := halike g hg hname
        rw [hrowAt _ hreached, hname, hnext, choice.rowAt_congr row horigin,
          Relation.links_congr hlocal hremote]
        exact hlinks

/-- There is a choice along all hops from a root row. -/
theorem exists_along (hu : q.Unambiguous schema root) (hs : s.Partnered (q.hops schema root))
    (hrow : row ∈ s.rows root.name) :
    ∃ choice : Choice, choice.Along s row (q.hops schema root) := by
  have hcovers := JoinSet.covers_takeHops ∅ (q.comparisons schema root)
  obtain ⟨choice, hc⟩ := JoinSet.takeHops_induct
    (P := fun k => ∃ choice : Choice, choice.UpTo s row (q.hops schema root) k)
    (fun _ hc => Search.resolved_of_mem hc)
    (fun _ _ hm hh ⟨_, hc⟩ => hc.takeHop hu hs hrow hm hh) ∅
    ⟨fun _ => ∅, fun _ he => (by cases he), fun _ _ he => (by cases he),
      fun _ _ he => (by cases he)⟩
  exact ⟨choice, fun h hm => hc.stored _ (hcovers h hm), fun h hm => hc.linked h hm (hcovers h hm)⟩

/-- Choices along the same hops are the same where the hops lead. -/
theorem Along.eq_of_along (ha : a.Along s row (q.hops schema root))
    (hb : b.Along s row (q.hops schema root)) (hs : s.Partnered (q.hops schema root))
    (hrow : row ∈ s.rows root.name) (hm : h ∈ q.hops schema root) :
    a h.target.name = b h.target.name := by
  have hresolved : ∀ c ∈ q.comparisons schema root, c.Resolved schema root :=
    fun _ hc => Search.resolved_of_mem hc
  have hagree := JoinSet.takeHops_induct
    (P := fun k => ∀ e, k.contains e = true → a e.name ∈ s.rows e.name ∧ a e.name = b e.name)
    hresolved ?_ ∅ (fun _ he => by cases he)
  · exact (hagree _ (JoinSet.covers_takeHops ∅ _ h hm)).2
  · intro k g hg hh hk e he
    rcases JoinSet.contains_takeHop_iff.mp he with he | hname
    · exact hk e he
    · have hsource := rowAt_mem_rows hh hrow fun e he => (hk e he).1
      have horigin : a.rowAt row g.origin = b.rowAt row g.origin := by
        cases ho : g.origin with
        | none => rfl
        | some f => exact (hk f (hh.reached f ho)).2
      have hlinked := hb.linked g hg
      rw [← horigin] at hlinked
      rw [hname]
      exact ⟨ha.stored g hg, (hs g hg _ hsource).unique ⟨ha.stored g hg, ha.linked g hg⟩
        ⟨hb.stored g hg, hlinked⟩⟩

end Choice

/-! ### Truth of a root row -/

section Truth

variable {schema : Schema} {root : Entity} {s : Store} {row : FieldMap} {x y choice : Choice}
  {c : Condition} {p : Plan}

theorem Comparison.truth_congr {k : Comparison}
    (h : ∀ g ∈ k.hops, x g.target.name = y g.target.name) : k.truth row x = k.truth row y := by
  have hrow : x.rowAt row k.reached = y.rowAt row k.reached := by
    cases hr : k.reached with
    | none => rfl
    | some e =>
      obtain ⟨g, hg, rfl⟩ := mem_of_reached hr
      exact h g hg
  rw [truth, truth, hrow]

/-- A condition depends on the rows to which its hops lead. -/
theorem Condition.truth_congr
    (h : ∀ g ∈ allHops (c.comparisons schema root), x g.target.name = y g.target.name) :
    c.truth schema root row x = c.truth schema root row y := by
  apply eval_congr
  intro leaf hleaf
  rw [Criteria.truth, Criteria.truth, Bool.eq_iff_iff, List.all_eq_true, List.all_eq_true]
  apply forall₂_congr
  intro k hk
  have hmem : k ∈ c.comparisons schema root := List.mem_flatMap.mpr ⟨leaf, hleaf, hk⟩
  rw [Comparison.truth_congr fun g hg => h g (List.mem_flatMap.mpr ⟨k, hmem, hg⟩)]

theorem Search.hops_condition (schema : Schema) (root : Entity) (c : Condition) :
    hops schema root ⟨[c], ∅⟩ = allHops (c.comparisons schema root) := by
  have hcriteria : (∅ : Criteria).comparisons schema root = [] := rfl
  simp [hops, comparisons, hcriteria]

/-- One choice along the hops of a condition decides it. -/
theorem Search.exists_met_iff (hs : s.Partnered (hops schema root ⟨[c], ∅⟩))
    (hrow : row ∈ s.rows root.name) (hc : choice.Along s row (hops schema root ⟨[c], ∅⟩)) :
    (∃ other, Met schema root ⟨[c], ∅⟩ s row other) ↔ c.truth schema root row choice = true := by
  constructor
  · rintro ⟨other, hm⟩
    have halong : other.Along s row (hops schema root ⟨[c], ∅⟩) := ⟨hm.stored, hm.linked⟩
    rw [← hm.conditions c (List.mem_singleton_self c)]
    apply Condition.truth_congr
    rw [← hops_condition]
    exact fun g hg => hc.eq_of_along halong hs hrow hg
  · intro htruth
    exact ⟨choice, hc.stored, hc.linked, by simpa using htruth, rfl⟩

end Truth

/-! ### Places -/

namespace Store

variable {schema : Schema} {root : Entity} {s : Store} {q : Search} {p : Plan} {i : ℕ}
  {row : FieldMap}

theorem mem_places : i ∈ s.places p ↔ ∃ tuple, s.Answers p i tuple := by
  rw [places, List.mem_toFinset, mem_positions]

theorem places_subset (s : Store) (p : Plan) : s.places p ⊆ Finset.range (s.size p.root) := by
  intro i hi
  rw [places, List.mem_toFinset] at hi
  obtain ⟨row, hrow⟩ := Option.isSome_iff_exists.mp (isSome_of_mem_positions hi)
  exact Finset.mem_range.mpr (List.getElem?_eq_some_iff.mp hrow).1

/-- Counting a plan counts the places that it selects. -/
theorem count_eq (s : Store) (p : Plan) : Id.run (s.backend.count p) = (s.places p).card := by
  have hlen := congrArg List.length (execute_map_some s p)
  rw [List.length_map, List.length_map] at hlen
  have hnodup : (s.positions p).Nodup := (positions_pairwise s p).imp fun h => h.ne
  rw [places, List.toFinset_card_of_nodup hnodup, ← hlen]
  rfl

/-- One choice decides for a root row all conditions whose hops are among those of a search. -/
theorem exists_truth (hu : q.Unambiguous schema root) (hs : s.Partnered (q.hops schema root))
    (hrow : (s.rows root.name)[i]? = some row) :
    ∃ choice : Choice, ∀ (c : Condition) (p : Plan), Plan.build schema root ⟨[c], ∅⟩ = .ok p →
      Search.hops schema root ⟨[c], ∅⟩ ⊆ q.hops schema root →
        (i ∈ s.places p ↔ c.truth schema root row choice = true) := by
  have hmem := List.mem_of_getElem? hrow
  obtain ⟨choice, hc⟩ := Choice.exists_along hu hs hmem
  refine ⟨choice, fun c p hp hsub => ?_⟩
  have hu' : Search.Unambiguous schema root ⟨[c], ∅⟩ :=
    fun g hg h hh => hu g (hsub hg) h (hsub hh)
  have hs' : s.Partnered (Search.hops schema root ⟨[c], ∅⟩) := fun g hg => hs g (hsub hg)
  rw [mem_places, Plan.exists_answers_iff hp hu' hrow,
    Search.exists_met_iff hs' hmem (hc.subset hsub)]

end Store

/-! ### Connectives -/

section Connectives

variable {schema : Schema} {root : Entity} {a b c : Condition} {s : Store} {p pa pb : Plan}

/-- A condition has a plan when its leaves are accepted. -/
theorem Plan.exists_build_iff (schema : Schema) (root : Entity) (c : Condition) :
    (∃ p, Plan.build schema root ⟨[c], ∅⟩ = .ok p) ↔ c.accept schema root = .ok () := by
  rw [Plan.build, refine_search_condition, refine_condition, Condition.compile_eq]
  change (∃ p, Except.map _ (Except.map _ (c.accept schema root)) = .ok p) ↔ _
  cases c.accept schema root with
  | error err => simp [Except.map]
  | ok _ => exact ⟨fun _ => rfl, fun _ => ⟨_, rfl⟩⟩

theorem Condition.accept_branches (ha : a.accept schema root = .ok ())
    (hb : b.accept schema root = .ok ()) :
    accept schema root (.and a b) = .ok () ∧ accept schema root (.or a b) = .ok () := by
  have hforM : (a.leaves ++ b.leaves).forM (Criteria.accept schema root)
      = (a.accept schema root).bind fun _ => b.accept schema root := List.forM_append
  rw [ha] at hforM
  exact ⟨hforM.trans hb, hforM.trans hb⟩

theorem Search.hops_pair (schema : Schema) (root : Entity) (a b : Condition) :
    hops schema root ⟨[a, b], ∅⟩
      = allHops (a.comparisons schema root ++ b.comparisons schema root) := by
  have hcriteria : (∅ : Criteria).comparisons schema root = [] := rfl
  simp [hops, comparisons, hcriteria]

theorem Search.hops_subset_pair (schema : Schema) (root : Entity) (a b : Condition) :
    hops schema root ⟨[a], ∅⟩ ⊆ hops schema root ⟨[a, b], ∅⟩ ∧
      hops schema root ⟨[b], ∅⟩ ⊆ hops schema root ⟨[a, b], ∅⟩ := by
  rw [hops_condition, hops_condition, hops_pair]
  simp only [allHops, List.flatMap_append]
  exact ⟨List.subset_append_left _ _, List.subset_append_right _ _⟩

namespace Store

/-- Sets of places are the same when they are the same at stored rows. -/
theorem eq_of_forall_row {t u : Finset ℕ} (ht : t ⊆ Finset.range (s.size root))
    (hu : u ⊆ Finset.range (s.size root))
    (h : ∀ i row, (s.rows root.name)[i]? = some row → (i ∈ t ↔ i ∈ u)) : t = u := by
  ext i
  by_cases hi : i < s.size root
  · exact h i _ (List.getElem?_eq_getElem hi)
  · have hnone : ∀ v ⊆ Finset.range (s.size root), i ∉ v :=
      fun v hv hm => hi (Finset.mem_range.mp (hv hm))
    exact iff_of_false (hnone t ht) (hnone u hu)

theorem places_subset_of_build (h : Plan.build schema root ⟨[c], ∅⟩ = .ok p) :
    s.places p ⊆ Finset.range (s.size root) := by
  have hsub := s.places_subset p
  rwa [Plan.root_of_build h] at hsub

/-- A negation selects the rows that the condition does not. -/
theorem places_not (ha : Plan.build schema root ⟨[a], ∅⟩ = .ok pa)
    (hp : Plan.build schema root ⟨[.not a], ∅⟩ = .ok p)
    (hu : Search.Unambiguous schema root ⟨[a], ∅⟩)
    (hs : s.Partnered (Search.hops schema root ⟨[a], ∅⟩)) :
    s.places p = Finset.range (s.size root) \ s.places pa := by
  apply eq_of_forall_row (places_subset_of_build hp) Finset.sdiff_subset
  intro i row hrow
  obtain ⟨choice, htruth⟩ := exists_truth hu hs hrow
  have hi : i < s.size root := (List.getElem?_eq_some_iff.mp hrow).1
  rw [Finset.mem_sdiff, Finset.mem_range, htruth a pa ha (List.Subset.refl _),
    htruth (.not a) p hp (List.Subset.refl _)]
  simp [Condition.truth, Condition.eval, hi]

theorem count_add_count_not (ha : Plan.build schema root ⟨[a], ∅⟩ = .ok pa)
    (hp : Plan.build schema root ⟨[.not a], ∅⟩ = .ok p)
    (hu : Search.Unambiguous schema root ⟨[a], ∅⟩)
    (hs : s.Partnered (Search.hops schema root ⟨[a], ∅⟩)) :
    Id.run (s.backend.count pa) + Id.run (s.backend.count p) = s.size root := by
  rw [count_eq, count_eq, places_not ha hp hu hs, Nat.add_comm,
    Finset.card_sdiff_add_card_eq_card (places_subset_of_build ha), Finset.card_range]

/-- A conjunction selects the rows that both conditions select. -/
theorem places_and (ha : Plan.build schema root ⟨[a], ∅⟩ = .ok pa)
    (hb : Plan.build schema root ⟨[b], ∅⟩ = .ok pb)
    (hp : Plan.build schema root ⟨[.and a b], ∅⟩ = .ok p)
    (hu : Search.Unambiguous schema root ⟨[a, b], ∅⟩)
    (hs : s.Partnered (Search.hops schema root ⟨[a, b], ∅⟩)) :
    s.places p = s.places pa ∩ s.places pb := by
  have hsub : Search.hops schema root ⟨[.and a b], ∅⟩ ⊆ Search.hops schema root ⟨[a, b], ∅⟩ := by
    rw [Search.hops_condition, Condition.comparisons_and, ← Search.hops_pair]
    exact List.Subset.refl _
  obtain ⟨hleft, hright⟩ := Search.hops_subset_pair schema root a b
  apply eq_of_forall_row (places_subset_of_build hp)
    (Finset.inter_subset_left.trans (places_subset_of_build ha))
  intro i row hrow
  obtain ⟨choice, htruth⟩ := exists_truth hu hs hrow
  rw [Finset.mem_inter, htruth a pa ha hleft, htruth b pb hb hright, htruth _ p hp hsub]
  simp [Condition.truth, Condition.eval]

/-- A disjunction selects the rows that either condition selects. -/
theorem places_or (ha : Plan.build schema root ⟨[a], ∅⟩ = .ok pa)
    (hb : Plan.build schema root ⟨[b], ∅⟩ = .ok pb)
    (hp : Plan.build schema root ⟨[.or a b], ∅⟩ = .ok p)
    (hu : Search.Unambiguous schema root ⟨[a, b], ∅⟩)
    (hs : s.Partnered (Search.hops schema root ⟨[a, b], ∅⟩)) :
    s.places p = s.places pa ∪ s.places pb := by
  have hsub : Search.hops schema root ⟨[.or a b], ∅⟩ ⊆ Search.hops schema root ⟨[a, b], ∅⟩ := by
    rw [Search.hops_condition, Condition.comparisons_or, ← Search.hops_pair]
    exact List.Subset.refl _
  obtain ⟨hleft, hright⟩ := Search.hops_subset_pair schema root a b
  apply eq_of_forall_row (places_subset_of_build hp)
    (Finset.union_subset (places_subset_of_build ha) (places_subset_of_build hb))
  intro i row hrow
  obtain ⟨choice, htruth⟩ := exists_truth hu hs hrow
  rw [Finset.mem_union, htruth a pa ha hleft, htruth b pb hb hright, htruth _ p hp hsub]
  simp [Condition.truth, Condition.eval]

/-- When every hop finds exactly one partner, the connectives are those of sets of places; the
counts of a condition and its negation add up to the number of rows, without hops on any
store. -/
theorem places_connectives (ha : Plan.build schema root ⟨[a], ∅⟩ = .ok pa)
    (hb : Plan.build schema root ⟨[b], ∅⟩ = .ok pb)
    (hu : Search.Unambiguous schema root ⟨[a, b], ∅⟩)
    (hs : s.Partnered (Search.hops schema root ⟨[a, b], ∅⟩)) :
    ∃ both either rest : Plan,
      (Plan.build schema root ⟨[.and a b], ∅⟩ = .ok both ∧
        Plan.build schema root ⟨[.or a b], ∅⟩ = .ok either ∧
          Plan.build schema root ⟨[.not a], ∅⟩ = .ok rest) ∧
      s.places both = s.places pa ∩ s.places pb ∧
      s.places either = s.places pa ∪ s.places pb ∧
      s.places rest = Finset.range (s.size root) \ s.places pa ∧
      Id.run (s.backend.count pa) + Id.run (s.backend.count rest) = s.size root ∧
      (Search.hops schema root ⟨[a], ∅⟩ = [] → ∀ t : Store,
        Id.run (t.backend.count pa) + Id.run (t.backend.count rest) = t.size root) := by
  have haccept := (Plan.exists_build_iff schema root a).mp ⟨pa, ha⟩
  obtain ⟨hand, hor⟩ :=
    Condition.accept_branches haccept ((Plan.exists_build_iff schema root b).mp ⟨pb, hb⟩)
  obtain ⟨both, hboth⟩ := (Plan.exists_build_iff schema root (.and a b)).mpr hand
  obtain ⟨either, heither⟩ := (Plan.exists_build_iff schema root (.or a b)).mpr hor
  obtain ⟨rest, hrest⟩ := (Plan.exists_build_iff schema root (.not a)).mpr haccept
  have hleft := (Search.hops_subset_pair schema root a b).1
  have hua : Search.Unambiguous schema root ⟨[a], ∅⟩ :=
    fun g hg h hh => hu g (hleft hg) h (hleft hh)
  have hsa : s.Partnered (Search.hops schema root ⟨[a], ∅⟩) := fun g hg => hs g (hleft hg)
  refine ⟨both, either, rest, ⟨hboth, heither, hrest⟩, places_and ha hb hboth hu hs,
    places_or ha hb heither hu hs, places_not ha hrest hua hsa,
    count_add_count_not ha hrest hua hsa, fun hempty t => ?_⟩
  apply count_add_count_not ha hrest hua
  rw [hempty]
  exact fun _ hm => (by cases hm)

end Store

end Connectives

namespace Specimen

open Condition (leaf)

/-- Treatments of a good category. -/
def good : Condition := leaf (.ofList [("status__category__label", .text "good")])

/-- Treatments that are open, and one by name. -/
def pending : Condition :=
  .or (leaf (.ofList [("status__name", .text "open")])) (leaf (.ofList [("name", .text "t1")]))

/-- Three treatments with two statuses, each of its own category. -/
def clinic : Store :=
  ⟨[("Treatment",
      [.ofEntries [("id", .uint 1), ("name", .text "t1"), ("status_id", .uint 3)],
        .ofEntries [("id", .uint 2), ("name", .text "t2"), ("status_id", .int 4)],
        .ofEntries [("id", .uint 5), ("name", .text "t3"), ("status_id", .uint 3)]]),
    ("Status",
      [.ofEntries [("id", .uint 3), ("name", .text "done"), ("category_id", .uint 5)],
        .ofEntries [("id", .uint 4), ("name", .text "open"), ("category_id", .uint 6)]]),
    ("Category",
      [.ofEntries [("id", .uint 5), ("label", .text "good")],
        .ofEntries [("id", .uint 6), ("label", .text "bad")]])]⟩

end Specimen

open Specimen in
/-- One plan has two joins and the other has one; each treatment is selected or left over. -/
theorem Store.places_connectives_clinic :
    ∃ pa pb, Plan.build schema treatment ⟨[good], ∅⟩ = .ok pa ∧
      Plan.build schema treatment ⟨[pending], ∅⟩ = .ok pb ∧
      Search.Unambiguous schema treatment ⟨[good, pending], ∅⟩ ∧
      clinic.Partnered (Search.hops schema treatment ⟨[good, pending], ∅⟩) ∧
      (∃ both either rest : Plan,
        (Plan.build schema treatment ⟨[.and good pending], ∅⟩ = .ok both ∧
          Plan.build schema treatment ⟨[.or good pending], ∅⟩ = .ok either ∧
            Plan.build schema treatment ⟨[.not good], ∅⟩ = .ok rest) ∧
        clinic.places both = clinic.places pa ∩ clinic.places pb ∧
        clinic.places either = clinic.places pa ∪ clinic.places pb ∧
        clinic.places rest = Finset.range (clinic.size treatment) \ clinic.places pa ∧
        Id.run (clinic.backend.count pa) + Id.run (clinic.backend.count rest)
          = clinic.size treatment) ∧
      clinic.places pa = {0, 2} ∧ clinic.places pb = {0, 1} := by
  have hrun : ((Plan.build schema treatment ⟨[good], ∅⟩).toOption.map clinic.places,
        (Plan.build schema treatment ⟨[pending], ∅⟩).toOption.map clinic.places)
      = (some {0, 2}, some {0, 1}) := by
    decide +kernel
  have hu : Search.Unambiguous schema treatment ⟨[good, pending], ∅⟩ := by decide +kernel
  have hs : clinic.Partnered (Search.hops schema treatment ⟨[good, pending], ∅⟩) :=
    partnered_of_length (by decide +kernel)
  rw [Prod.mk.injEq] at hrun
  obtain ⟨hgood, hpending⟩ := hrun
  obtain ⟨pa, ha, hpa⟩ := Option.map_eq_some_iff.mp hgood
  obtain ⟨pb, hb, hpb⟩ := Option.map_eq_some_iff.mp hpending
  have hbuild := toOption_eq_some.mp ha
  have hbuild' := toOption_eq_some.mp hb
  obtain ⟨both, either, rest, hplans, hand, hor, hnot, hcount, -⟩ :=
    places_connectives hbuild hbuild' hu hs
  exact ⟨pa, pb, hbuild, hbuild', hu, hs, ⟨both, either, rest, hplans, hand, hor, hnot, hcount⟩,
    hpa, hpb⟩

end PathQuery
