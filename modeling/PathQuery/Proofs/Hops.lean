import Mathlib.Data.List.Induction
import PathQuery.Criteria.Compile

/-! The hops of paths, apart from slots, and what they do to a join set. A set that takes
hops keeps all its joins in place, so the slot of an entity never moves once it is reached,
and hops whose targets are reached already add nothing. A walk ends in the slot of its last
target. -/

namespace PathQuery

/-- A relationship followed by a path. The first hop of a path leaves the root row; a later
one leaves the row joined for the entity that the hop before it reaches. -/
structure Hop where
  origin : Option Entity
  source : Entity
  name : String
  relation : Relation
  target : Entity

/-- The hops along some names. -/
def route (schema : Schema) :
    Option Entity → Entity → List String → Except CriteriaError (List Hop)
  | _, _, [] => .ok []
  | origin, here, name :: names =>
    match here.relation? name with
    | none => .error (.unknownRelation here.name name)
    | some relation =>
      let target := schema.target relation
      (route schema (some target) target names).map (⟨origin, here, name, relation, target⟩ :: ·)

/-- The joined entity where hops end; where they start when there are none. -/
def reached (origin : Option Entity) (hops : List Hop) : Option Entity :=
  hops.foldl (fun _ h => some h.target) origin

/-- The entity where hops end. -/
def arrival (here : Entity) (hops : List Hop) : Entity := hops.foldl (fun _ h => h.target) here

theorem arrival_eq (here : Entity) (hops : List Hop) :
    arrival here hops = (reached none hops).getD here := by
  induction hops using List.reverseRecOn with
  | nil => rfl
  | append_singleton hops h _ => simp [arrival, reached]

theorem mem_of_reached {hops : List Hop} {e : Entity} (h : reached none hops = some e) :
    ∃ hop ∈ hops, hop.target = e := by
  induction hops using List.reverseRecOn with
  | nil => cases h
  | append_singleton hops hop _ => exact ⟨hop, by simp, by simpa [reached] using h⟩

namespace JoinSet

/-- The slot of the root row or of a joined entity. -/
def slotAt (s : JoinSet) : Option Entity → ℕ
  | none => rootSlot
  | some e => (s.slotOf? e).getD rootSlot

/-- The root row, or an entity that the set reaches. -/
def Reaches (s : JoinSet) (origin : Option Entity) : Prop := ∀ e ∈ origin, s.contains e = true

/-- Takes the join of a hop in. -/
def takeHop (s : JoinSet) (h : Hop) : JoinSet :=
  (s.insert (Join.step h.source (s.slotAt h.origin) h.name h.relation h.target)).2

def takeHops (s : JoinSet) (hops : List Hop) : JoinSet := hops.foldl takeHop s

variable {s t : JoinSet} {e : Entity} {origin : Option Entity} {h : Hop} {hops : List Hop}

@[simp] theorem takeHops_cons (s : JoinSet) (h : Hop) (hops : List Hop) :
    s.takeHops (h :: hops) = (s.takeHop h).takeHops hops := rfl

theorem takeHops_append (s : JoinSet) (hops more : List Hop) :
    s.takeHops (hops ++ more) = (s.takeHops hops).takeHops more := List.foldl_append

@[simp] theorem reaches_none (s : JoinSet) : s.Reaches none := by
  intro e he
  cases he

theorem reaches_some : s.Reaches (some e) ↔ s.contains e = true := by simp [Reaches]

/-! ### Slots never move -/

theorem prefix_takeHop (s : JoinSet) (h : Hop) : s.joins <+: (s.takeHop h).joins :=
  joins_isPrefix_insert _ _

theorem prefix_takeHops (s : JoinSet) (hops : List Hop) :
    s.joins <+: (s.takeHops hops).joins := by
  induction hops generalizing s with
  | nil => exact List.prefix_rfl
  | cons h hops ih => exact (prefix_takeHop s h).trans (ih _)

theorem slotOf?_stable {slot : ℕ} (hp : s.joins <+: t.joins)
    (h : s.slotOf? e = some slot) : t.slotOf? e = some slot := by
  obtain ⟨more, hmore⟩ := hp
  unfold slotOf? at h ⊢
  rw [Option.map_eq_some_iff] at h
  obtain ⟨j, hj, rfl⟩ := h
  rw [← hmore, List.find?_append, hj]
  rfl

theorem contains_mono (hp : s.joins <+: t.joins) (h : s.contains e = true) :
    t.contains e = true := by
  obtain ⟨slot, hs⟩ := Option.isSome_iff_exists.mp h
  rw [contains, slotOf?_stable hp hs]
  rfl

theorem Reaches.mono (hp : s.joins <+: t.joins) (h : s.Reaches origin) :
    t.Reaches origin := fun e he => contains_mono hp (h e he)

theorem slotAt_stable (hp : s.joins <+: t.joins) (h : s.Reaches origin) :
    t.slotAt origin = s.slotAt origin := by
  cases origin with
  | none => rfl
  | some e =>
    obtain ⟨slot, hs⟩ := Option.isSome_iff_exists.mp (h e rfl)
    rw [slotAt, slotAt, hs, slotOf?_stable hp hs]

theorem contains_takeHop (s : JoinSet) (h : Hop) : (s.takeHop h).contains h.target = true := by
  have hs := slotOf?_insert_self s
    (Join.step h.source (s.slotAt h.origin) h.name h.relation h.target)
  rw [contains, takeHop]
  exact Option.isSome_of_eq_some hs

theorem contains_takeHops (s : JoinSet) (hm : h ∈ hops) :
    (s.takeHops hops).contains h.target = true := by
  induction hops generalizing s with
  | nil => cases hm
  | cons g hops ih =>
    rcases List.mem_cons.mp hm with rfl | hm
    · exact contains_mono (prefix_takeHops _ hops) (contains_takeHop s h)
    · exact ih _ hm

theorem reaches_takeHops (s : JoinSet) (hops : List Hop) :
    (s.takeHops hops).Reaches (reached none hops) := by
  intro e he
  obtain ⟨hop, hm, rfl⟩ := mem_of_reached he
  exact contains_takeHops s hm

theorem takeHop_of_contains (hc : s.contains h.target = true) : s.takeHop h = s := by
  obtain ⟨slot, hs⟩ := Option.isSome_iff_exists.mp hc
  rw [takeHop, insert_of_slotOf? hs]

/-- Hops to entities that are reached already add nothing. -/
theorem takeHops_of_contains (hc : ∀ h ∈ hops, s.contains h.target = true) :
    s.takeHops hops = s := by
  induction hops with
  | nil => rfl
  | cons h hops ih =>
    rw [takeHops_cons, takeHop_of_contains (hc h List.mem_cons_self)]
    exact ih fun g hg => hc g (List.mem_cons_of_mem _ hg)

end JoinSet

namespace Standing

variable {here : Standing} {origin : Option Entity} {s : JoinSet}

/-- A hop leads to its target, in the slot of its target. -/
theorem outcome_hop {schema : Schema} {name : String} {relation : Relation}
    (ho : here.slot = s.slotAt origin) (hr : here.entity.relation? name = some relation) :
    let h : Hop := ⟨origin, here.entity, name, relation, schema.target relation⟩
    outcome (here.hop schema name) s
      = .ok (⟨h.target, (s.takeHop h).slotAt (some h.target)⟩, s.takeHop h) := by
  have hs := JoinSet.slotOf?_insert_self s
    (Join.step here.entity (s.slotAt origin) name relation (schema.target relation))
  have hslot := congrArg (Option.getD · rootSlot) hs
  unfold hop
  simp only [hr, ho, outcome_bind, outcome_modifyGet]
  exact congrArg (fun slot => Except.ok (Standing.mk _ slot, _)) hslot.symm

/-- A walk takes the hops of its route and ends in the slot of the last one. -/
theorem outcome_walk (schema : Schema) (names : List String)
    (ho : here.slot = s.slotAt origin) :
    outcome (here.walk schema names) s = (route schema origin here.entity names).map fun hops =>
      (⟨arrival here.entity hops, (s.takeHops hops).slotAt (reached origin hops)⟩,
        s.takeHops hops) := by
  induction names generalizing here origin s with
  | nil =>
    obtain ⟨entity, slot⟩ := here
    have hslot : slot = s.slotAt origin := ho
    subst hslot
    rfl
  | cons name names ih =>
    rw [walk, route, outcome_bind]
    cases hr : here.entity.relation? name with
    | none => simp only [hop, hr, outcome_throw]; rfl
    | some relation =>
      let h : Hop := ⟨origin, here.entity, name, relation, schema.target relation⟩
      rw [outcome_hop ho hr]
      have hnext := @ih ⟨h.target, (s.takeHop h).slotAt (some h.target)⟩ (some h.target)
        (s.takeHop h) rfl
      refine hnext.trans ?_
      simp only [h]
      cases route schema (some (schema.target relation)) (schema.target relation) names with
      | error _ => rfl
      | ok hops => rfl

end Standing

end PathQuery
