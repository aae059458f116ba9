import PathQuery.Proofs.WellFormed
import PathQuery.Value.Identity

/-! What a search means. Choose one stored row for the name of each entity that its hops reach,
so that every hop links the row it leaves to the row it reaches; a root row answers the
search when some choice makes all conditions and criteria true. Paths in an order, joins and
slots have no part in this. When hops to one entity leave one place by one pair of keys, the
plan of the search returns the root rows that answer it: the join set has a join for every
hop, so tuples over its joins are choices, read slot by slot. -/

namespace PathQuery

open Comparison (allHops)

/-- A row for the name of each entity. -/
abbrev Choice := String → FieldMap

/-- The row that a hop leaves or a comparison reads, the root row or a chosen one. -/
def Choice.rowAt (choice : Choice) (row : FieldMap) : Option Entity → FieldMap
  | none => row
  | some e => choice e.name

section Truth

variable (schema : Schema) (root : Entity) (row : FieldMap) (choice : Choice)

def Comparison.truth (c : Comparison) : Bool :=
  ((choice.rowAt row c.reached).get? c.field).any fun actual => c.op.holds actual c.value

def Criteria.truth (c : Criteria) : Bool :=
  (c.comparisons schema root).all (Comparison.truth row choice)

def Condition.truth (c : Condition) : Bool := c.eval (Criteria.truth schema root row choice)

end Truth

/-- From one place, by one pair of keys. -/
def Hop.Alike (h g : Hop) : Prop :=
  h.origin.map Entity.name = g.origin.map Entity.name ∧
    h.relation.localKey = g.relation.localKey ∧ h.relation.remoteKey = g.relation.remoteKey

instance (h g : Hop) : Decidable (h.Alike g) := inferInstanceAs (Decidable (_ ∧ _ ∧ _))

namespace Search

variable (schema : Schema) (root : Entity) (q : Search)

/-- The hops of all paths. -/
def hops : List Hop := allHops (q.comparisons schema root)

/-- Hops that reach one entity are alike. -/
def Unambiguous : Prop :=
  ∀ h ∈ q.hops schema root, ∀ g ∈ q.hops schema root, h.target.name = g.target.name → h.Alike g

instance : Decidable (q.Unambiguous schema root) :=
  inferInstanceAs (Decidable (∀ h ∈ q.hops schema root, ∀ g ∈ q.hops schema root,
    h.target.name = g.target.name → h.Alike g))

/-- The choice is of stored rows, follows the hops and makes the search true of the row. -/
structure Met (s : Store) (row : FieldMap) (choice : Choice) : Prop where
  stored : ∀ h ∈ q.hops schema root, choice h.target.name ∈ s.rows h.target.name
  linked : ∀ h ∈ q.hops schema root,
    h.relation.Links (choice.rowAt row h.origin) (choice h.target.name)
  conditions : ∀ c ∈ q.conditions, c.truth schema root row choice = true
  criteria : q.criteria.truth schema root row choice = true

end Search

theorem Choice.rowAt_congr {a b : Option Entity} (choice : Choice) (row : FieldMap)
    (h : a.map Entity.name = b.map Entity.name) : choice.rowAt row a = choice.rowAt row b := by
  cases a <;> cases b <;> simp_all [rowAt]

/-- Only the keys of a relationship link rows. -/
theorem Relation.links_congr {a b : Relation} (hl : a.localKey = b.localKey)
    (hr : a.remoteKey = b.remoteKey) {source target : FieldMap} :
    a.Links source target ↔ b.Links source target := by
  rw [Links, Links, hl, hr]

namespace JoinSet

/-- Every join stands for one of the hops. -/
def Realizes (s : JoinSet) (hops : List Hop) : Prop :=
  ∀ j ∈ s.joins, ∃ h ∈ hops, s.Reaches h.origin ∧ j.sourceSlot = s.slotAt h.origin ∧
    j.relation = h.relation ∧ j.target = h.target

/-- The tuple has the root row and the chosen rows in their slots. -/
def Seats (s : JoinSet) (tuple : Tuple) (row : FieldMap) (choice : Choice) : Prop :=
  ∀ origin, s.Reaches origin → tuple[s.slotAt origin]? = some (choice.rowAt row origin)

/-- The tuple that a choice makes. -/
def seat (s : JoinSet) (row : FieldMap) (choice : Choice) : Tuple :=
  row :: s.joins.map fun j => choice j.target.name

/-- The choice that a tuple makes. -/
def chosen (s : JoinSet) (tuple : Tuple) : Choice := fun name =>
  ((s.joins.find? fun j => j.target.name == name).bind fun j => tuple[j.slot]?).getD ∅

variable {schema : Schema} {root : Entity} {s : JoinSet} {h : Hop} {hops : List Hop}
  {tuple : Tuple} {row : FieldMap} {choice : Choice}

theorem realizes_empty (hops : List Hop) : (∅ : JoinSet).Realizes hops := by
  intro j hj
  cases hj

theorem Realizes.takeHop (hs : s.Realizes hops) (hm : h ∈ hops) (ho : s.Reaches h.origin) :
    (s.takeHop h).Realizes hops := by
  cases hc : s.contains h.target with
  | true => rwa [takeHop_of_contains hc]
  | false =>
    have hp := prefix_takeHop s h
    intro j hj
    rw [joins_takeHop_of_new hc, List.mem_append, List.mem_singleton] at hj
    rcases hj with hj | rfl
    · obtain ⟨g, hg, hr, hslot, hrelation, htarget⟩ := hs j hj
      refine ⟨g, hg, hr.mono hp, ?_, hrelation, htarget⟩
      rw [hslot, slotAt_stable hp hr]
    · exact ⟨h, hm, ho.mono hp, (slotAt_stable hp ho).symm, rfl, rfl⟩

theorem WellFormed.seats_seat (hs : s.WellFormed schema root) (row : FieldMap)
    (choice : Choice) : s.Seats (s.seat row choice) row choice := by
  intro origin ho
  cases origin with
  | none => rfl
  | some e =>
    obtain ⟨slot, hslot⟩ := Option.isSome_iff_exists.mp (ho e rfl)
    obtain ⟨k, j, hk, hname, rfl⟩ := exists_join_of_slotOf? hslot
    rw [slotAt, hslot, Option.getD_some, (hs.placed k j hk).slot, seat, List.getElem?_cons_succ,
      List.getElem?_map, hk, Option.map_some, hname]
    rfl

theorem WellFormed.seats_chosen (hs : s.WellFormed schema root)
    (hlen : tuple.length = s.size + 1) (h0 : tuple[0]? = some row) :
    s.Seats tuple row (s.chosen tuple) := by
  intro origin ho
  cases origin with
  | none => exact h0
  | some e =>
    obtain ⟨slot, hslot⟩ := Option.isSome_iff_exists.mp (ho e rfl)
    have hle := le_size_of_nameAt? (hs.nameAt?_slotOf? hslot)
    have hread : tuple[slot]? = some tuple[slot] := List.getElem?_eq_getElem (by omega)
    have hchosen : s.chosen tuple e.name = tuple[slot] := by
      unfold slotOf? at hslot
      obtain ⟨j, hj, rfl⟩ := Option.map_eq_some_iff.mp hslot
      have hfind : (s.joins.find? fun j => j.target.name == e.name) = some j := hj
      rw [chosen, hfind, Option.bind_some, hread, Option.getD_some]
    rw [slotAt, hslot, Option.getD_some, hread, Choice.rowAt, hchosen]

end JoinSet

/-! ### Clauses on seated tuples -/

section Seated

variable {schema : Schema} {root : Entity} {s : JoinSet} {tuple : Tuple} {row : FieldMap}
  {choice : Choice}

theorem Comparison.holds_expr {c : Comparison} (hr : s.Reaches c.reached)
    (ht : s.Seats tuple row choice) : (c.expr s).holds tuple = c.truth row choice := by
  have hread : tuple[(c.column s).slot]? = some (choice.rowAt row c.reached) := ht _ hr
  rw [expr, Expr.holds, Column.read, hread]
  rfl

theorem Condition.eval_congr {c : Condition} {ρ σ : Criteria → Bool}
    (h : ∀ leaf ∈ c.leaves, ρ leaf = σ leaf) : c.eval ρ = c.eval σ := by
  induction c with
  | leaf criteria => exact h criteria (List.mem_singleton_self criteria)
  | and left right ihl ihr =>
    have hl := ihl fun leaf hm => h leaf (List.mem_append_left _ hm)
    have hr := ihr fun leaf hm => h leaf (List.mem_append_right _ hm)
    rw [eval, eval, hl, hr]
  | or left right ihl ihr =>
    have hl := ihl fun leaf hm => h leaf (List.mem_append_left _ hm)
    have hr := ihr fun leaf hm => h leaf (List.mem_append_right _ hm)
    rw [eval, eval, hl, hr]
  | not inner ih => rw [eval, eval, ih h]

theorem Condition.holds_expr_of_seats {c : Condition} (hc : s.Covers (c.comparisons schema root))
    (ht : s.Seats tuple row choice) :
    (c.expr schema root s).holds tuple = c.truth schema root row choice := by
  rw [holds_expr, truth]
  apply eval_congr
  intro leaf hleaf
  rw [Criteria.truth, Bool.eq_iff_iff, List.all_eq_true, List.all_eq_true]
  apply forall₂_congr
  intro k hk
  rw [Comparison.holds_expr (hc.reaches (List.mem_flatMap.mpr ⟨leaf, hleaf, hk⟩)) ht]

/-- The clauses of a search hold of a tuple as the search is true of the choice. -/
theorem Search.forall_holds_iff {q : Search} (hc : s.Covers (q.comparisons schema root))
    (ht : s.Seats tuple row choice) :
    (∀ e ∈ q.exprs schema root s, e.holds tuple = true) ↔
      (∀ c ∈ q.conditions, c.truth schema root row choice = true) ∧
        q.criteria.truth schema root row choice = true := by
  obtain ⟨hconditions, hcriteria⟩ := JoinSet.covers_append.mp hc
  rw [exprs, List.forall_mem_append, List.forall_mem_map, List.forall_mem_map]
  apply and_congr
  · apply forall₂_congr
    intro c hm
    have hcovers := hconditions.subset fun k hk => List.mem_flatMap.mpr ⟨c, hm, hk⟩
    rw [Condition.holds_expr_of_seats hcovers ht]
  · rw [Criteria.truth, List.all_eq_true]
    apply forall₂_congr
    intro k hk
    rw [Comparison.holds_expr (hcriteria.reaches hk) ht]

end Seated

/-! ### Choices and tuples -/

namespace Search

variable {schema : Schema} {root : Entity} {q : Search} {k : JoinSet} {s : Store} {i : ℕ}
  {tuple : Tuple} {row : FieldMap} {choice : Choice}

/-- A choice that meets the search gives a tuple that answers its plan. -/
theorem answers_of_met (hw : k.WellFormed schema root) (hr : k.Realizes (q.hops schema root))
    (hc : k.Covers (q.comparisons schema root)) (hrow : (s.rows root.name)[i]? = some row)
    (hm : q.Met schema root s row choice) :
    s.Answers ⟨root, k, q.exprs schema root k⟩ i (k.seat row choice) := by
  have hseats := hw.seats_seat row choice
  refine { length := ?_, start := ?_, joined := ?_, clauses := ?_ }
  · simp [JoinSet.seat]
  · exact ⟨row, hrow, rfl⟩
  · intro n j hn
    obtain ⟨h, hh, hreaches, hslot, hrelation, htarget⟩ := hr j (List.mem_of_getElem? hn)
    have hread : (k.seat row choice)[n + 1]? = some (choice j.target.name) := by
      rw [JoinSet.seat, List.getElem?_cons_succ, List.getElem?_map, hn, Option.map_some]
    refine ⟨(hw.placed n j hn).earlier, choice.rowAt row h.origin, _, ?_, hread, ?_, ?_⟩
    · rw [hslot]
      exact hseats h.origin hreaches
    · rw [htarget]
      exact hm.stored h hh
    · rw [hrelation, htarget]
      exact hm.linked h hh
  · exact (forall_holds_iff hc hseats).mpr ⟨hm.conditions, hm.criteria⟩

/-- The hops of an unambiguous search link the rows of a tuple that follows its joins, also
those hops whose target another hop has brought in. -/
theorem linked_of_follows (hw : k.WellFormed schema root) (hr : k.Realizes (q.hops schema root))
    (hc : k.Covers (q.comparisons schema root)) (hu : q.Unambiguous schema root)
    (hf : s.Follows root k.joins i tuple) (hseats : k.Seats tuple row choice) {h : Hop}
    (hh : h ∈ q.hops schema root) :
    choice h.target.name ∈ s.rows h.target.name ∧
      h.relation.Links (choice.rowAt row h.origin) (choice h.target.name) := by
  have hreached : k.Reaches (some h.target) := JoinSet.reaches_some.mpr (hc h hh)
  obtain ⟨slot, hslot⟩ := Option.isSome_iff_exists.mp (hc h hh)
  obtain ⟨n, j, hn, hname, rfl⟩ := JoinSet.exists_join_of_slotOf? hslot
  obtain ⟨-, source, target, hsource, htarget, hmem, hlinks⟩ := hf.joined n j hn
  obtain ⟨g, hg, hreaches, hsourceSlot, hrelation, hgtarget⟩ := hr j (List.mem_of_getElem? hn)
  -- the slot of the join holds the row chosen for the target
  have hrow := hseats (some h.target) hreached
  rw [JoinSet.slotAt, hslot, Option.getD_some, (hw.placed n j hn).slot, htarget,
    Option.some.injEq] at hrow
  rw [Choice.rowAt] at hrow
  -- the hop that the join stands for leaves the same row by the same keys
  obtain ⟨horigin, hlocal, hremote⟩ := hu h hh g hg (by rw [← hgtarget, hname])
  have hleft := hseats g.origin hreaches
  rw [← hsourceSlot, hsource, Option.some.injEq, ← choice.rowAt_congr row horigin] at hleft
  rw [hrelation] at hlinks
  rw [hname, hrow] at hmem
  rw [hleft, hrow] at hlinks
  exact ⟨hmem, (Relation.links_congr hlocal hremote).mpr hlinks⟩

/-- A tuple that answers the plan of an unambiguous search gives a choice that meets it. -/
theorem met_of_answers (hw : k.WellFormed schema root) (hr : k.Realizes (q.hops schema root))
    (hc : k.Covers (q.comparisons schema root)) (hu : q.Unambiguous schema root)
    (hrow : (s.rows root.name)[i]? = some row)
    (ha : s.Answers ⟨root, k, q.exprs schema root k⟩ i tuple) :
    q.Met schema root s row (k.chosen tuple) := by
  have h0 : tuple[0]? = some row := by
    obtain ⟨first, hfirst, h0⟩ := ha.start
    rw [hrow, Option.some.injEq] at hfirst
    rw [h0, hfirst]
  have hseats := hw.seats_chosen ha.length h0
  have hlinked := fun h hh => linked_of_follows (h := h) hw hr hc hu ha.toFollows hseats hh
  obtain ⟨hconditions, hcriteria⟩ := (forall_holds_iff hc hseats).mp ha.clauses
  exact ⟨fun h hh => (hlinked h hh).1, fun h hh => (hlinked h hh).2, hconditions, hcriteria⟩

end Search

namespace Plan

variable {schema : Schema} {root : Entity} {search : Search} {p : Plan}

/-- A root row has a tuple that answers the plan of an unambiguous search when it has a choice
that meets the search. -/
theorem exists_answers_iff (h : Plan.build schema root search = .ok p)
    (hu : search.Unambiguous schema root) {s : Store} {i : ℕ} {row : FieldMap}
    (hrow : (s.rows root.name)[i]? = some row) :
    (∃ tuple, s.Answers p i tuple) ↔ ∃ choice, search.Met schema root s row choice := by
  have hp := refine_search_eq_ok h
  have hresolved : ∀ c ∈ search.comparisons schema root, c.Resolved schema root :=
    fun _ hc => Search.resolved_of_mem hc
  obtain ⟨hw, hr⟩ := JoinSet.takeHops_induct (P := fun k =>
      k.WellFormed schema root ∧ k.Realizes (search.hops schema root)) hresolved
    (fun k g hg hs hk => ⟨hk.1.takeHop hs, hk.2.takeHop hg hs.reached⟩) ∅
    ⟨JoinSet.wellFormed_empty schema root, JoinSet.realizes_empty _⟩
  have hc := JoinSet.covers_takeHops ∅ (search.comparisons schema root)
  subst hp
  constructor
  · rintro ⟨tuple, ha⟩
    exact ⟨_, Search.met_of_answers hw hr hc hu hrow ha⟩
  · rintro ⟨choice, hm⟩
    exact ⟨_, Search.answers_of_met hw hr hc hrow hm⟩

theorem root_of_build (h : Plan.build schema root search = .ok p) : p.root = root := by
  obtain rfl := refine_search_eq_ok h
  rfl

open scoped Classical in
/-- Executing the plan of an unambiguous search returns the root rows for which some choice
of rows meets the search. -/
theorem execute_build (h : Plan.build schema root search = .ok p)
    (hu : search.Unambiguous schema root) (s : Store) :
    s.execute p = (s.rows root.name).filter fun row =>
      ∃ choice, search.Met schema root s row choice := by
  have hroot := root_of_build h
  rw [← hroot]
  apply Store.execute_eq_filter
  intro i row hrow
  rw [hroot] at hrow
  rw [decide_eq_true_iff, exists_answers_iff h hu hrow, hroot]

end Plan

namespace Specimen

open Condition (leaf)

/-- Treatments with a status named like this, of a good category unless no treatment of the
status goes by that name. -/
def siblings : Search :=
  ⟨[.or (leaf (.ofList [("status__category__label", .text "good")]))
      (.not (leaf (.ofList [("status__treatments__name", .text "t1")])))],
    .ofList [("status__name__like", .text "o%")]⟩

/-- Two treatments of one status, whose category is not good. -/
def ward : Store :=
  ⟨[("Treatment",
      [.ofEntries [("id", .uint 1), ("name", .text "t1"), ("status_id", .uint 3)],
        .ofEntries [("id", .uint 2), ("name", .text "t2"), ("status_id", .int 3)],
        .ofEntries [("id", .uint 4), ("name", .text "t2"), ("status_id", .null)]]),
    ("Status", [.ofEntries [("id", .uint 3), ("name", .text "ok"), ("category_id", .uint 5)]]),
    ("Category", [.ofEntries [("id", .uint 5), ("label", .text "bad")]])]⟩

end Specimen

open Specimen in
/-- The root entity is chosen again, and another treatment of the status will do. -/
theorem Plan.execute_build_siblings :
    ∃ p, Plan.build schema treatment siblings = .ok p ∧
      siblings.Unambiguous schema treatment ∧
        (∀ s : Store, s.execute p = (s.rows treatment.name).filter fun row =>
          open scoped Classical in decide (∃ choice,
            siblings.Met schema treatment s row choice)) ∧
        p.joins.targets = [status, category, treatment] ∧
          (ward.execute p).map (fun row => row.get? "id") = [some (.uint 1), some (.uint 2)] := by
  have hrun : (Plan.build schema treatment siblings).toOption.map (fun p =>
        (p.joins.targets, (ward.execute p).map fun row => row.get? "id"))
      = some ([status, category, treatment], [some (.uint 1), some (.uint 2)]) := by
    decide +kernel
  have hu : siblings.Unambiguous schema treatment := by decide +kernel
  cases hb : Plan.build schema treatment siblings with
  | error _ => rw [hb] at hrun; cases hrun
  | ok p =>
    rw [hb] at hrun
    have hpair := Option.some.inj hrun
    exact ⟨p, rfl, hu, execute_build hb hu, congrArg Prod.fst hpair, congrArg Prod.snd hpair⟩

end PathQuery
