/-
  Notebook.Proofs.Graph.Plan — what a plan covers, and why it blocks what it blocks.

  A plan splits the run-set, the live roots and all their descendants, into the cells it orders and
  the cells it blocks.  A cell is barred when a cycle of the run-set leads to it; exactly the barred
  cells are blocked, those on a cycle with the cycle and the others with a cell above them that lies
  on one.  The rest has no cycle, so all of it is ordered, each cell after those it depends on.

  Main results:
    * `mem_plan_blocked` / `mem_plan_order` — blocked are the barred cells, ordered the others,
    * `plan_blocked_nodup` / `plan_order_nodup` — each cell once,
    * `plan_order_pairwise` — the order is a dependency order,
    * `plan_blocked_reason` — what the reasons say is so.
-/
import Mathlib.Data.List.Nodup
import Notebook.Proofs.Graph.Paths

namespace Notebook.Graph

open Relation

variable {g g' : Graph} {roots : OrderedSet CellId} {members group : List CellId}
  {a b id : CellId} {reason : BlockReason}

/-! ## §1. Groups of cells that lie on cycles together. -/

/-- Two cells lie on a cycle together. -/
def Together (g : Graph) (a b : CellId) : Prop := TransGen g.Edge a b ∧ TransGen g.Edge b a

theorem Together.symm (h : g.Together a b) : g.Together b a := ⟨h.2, h.1⟩

theorem Together.trans {c : CellId} (h : g.Together a b) (h' : g.Together b c) : g.Together a c :=
  ⟨h.1.trans h'.1, h'.2.trans h.2⟩

theorem mem_component (hg : g.WellFormed) :
    b ∈ component (listed g.below) g.ids a ↔ g.Together a b := by
  simp only [component, List.mem_filter, Bool.and_eq_true, List.contains_iff_mem,
    mem_listed_below hg]
  constructor
  · intro h
    exact h.2
  · intro h
    exact ⟨mem_ids.2 (OnCycle.contains (h.2.trans h.1)), h⟩

/-- Every group is the component of a member. -/
theorem exists_component
    (h : group ∈ cyclicComponents (listed g.below) g.ids members) :
    ∃ m ∈ members, group = component (listed g.below) g.ids m := by
  induction members with
  | nil => cases h
  | cons first rest ih =>
    simp only [cyclicComponents] at h
    split at h
    · rcases List.mem_cons.1 h with h | h
      · exact ⟨first, List.mem_cons_self, h⟩
      · obtain ⟨m, hm, hgroup⟩ := ih (List.mem_filter.1 h).1
        exact ⟨m, List.mem_cons_of_mem _ hm, hgroup⟩
    · obtain ⟨m, hm, hgroup⟩ := ih h
      exact ⟨m, List.mem_cons_of_mem _ hm, hgroup⟩

/-- Two cells of one group lie on a cycle together. -/
theorem together_of_group (hg : g.WellFormed)
    (h : group ∈ cyclicComponents (listed g.below) g.ids members) (ha : a ∈ group)
    (hb : b ∈ group) : g.Together a b := by
  obtain ⟨m, -, rfl⟩ := exists_component h
  exact ((mem_component hg).1 ha).symm.trans ((mem_component hg).1 hb)

theorem exists_group (hg : g.WellFormed) {m : CellId} (hm : m ∈ members) (h : g.Together m id) :
    ∃ group ∈ cyclicComponents (listed g.below) g.ids members, id ∈ group := by
  induction members with
  | nil => cases hm
  | cons first rest ih =>
    simp only [cyclicComponents]
    rcases List.mem_cons.1 hm with rfl | hm
    · rw [if_pos ((onCycle_below hg).2 (h.1.trans h.2))]
      exact ⟨_, List.mem_cons_self, (mem_component hg).2 h⟩
    · obtain ⟨group, hgroup, hid⟩ := ih hm
      split
      · -- a group that also contains the first member is the first member's own group
        by_cases hfirst : first ∈ group
        · exact ⟨_, List.mem_cons_self,
            (mem_component hg).2 (together_of_group hg hgroup hfirst hid)⟩
        · refine ⟨group, List.mem_cons_of_mem _ (List.mem_filter.2 ⟨hgroup, ?_⟩), hid⟩
          simpa using hfirst
      · exact ⟨group, hgroup, hid⟩

theorem mem_cyclicComponents (hg : g.WellFormed) :
    id ∈ (cyclicComponents (listed g.below) g.ids members).flatten ↔
      ∃ m ∈ members, g.Together m id := by
  rw [List.mem_flatten]
  constructor
  · intro h
    obtain ⟨group, hgroup, hid⟩ := h
    obtain ⟨m, hm, rfl⟩ := exists_component hgroup
    exact ⟨m, hm, (mem_component hg).1 hid⟩
  · intro h
    obtain ⟨m, hm, htogether⟩ := h
    exact exists_group hg hm htogether

theorem cyclicComponents_nodup (hg : g.WellFormed) :
    (cyclicComponents (listed g.below) g.ids members).flatten.Nodup := by
  rw [List.nodup_flatten]
  constructor
  · intro group hgroup
    obtain ⟨m, -, rfl⟩ := exists_component hgroup
    exact hg.ids_nodup.sublist List.filter_sublist
  · induction members with
    | nil => exact List.Pairwise.nil
    | cons first rest ih =>
      simp only [cyclicComponents]
      split
      -- a later group that met this one would hold its first cell, and such groups are dropped
      · refine List.pairwise_cons.2 ⟨fun group hgroup id hown hid => ?_, ih.filter _⟩
        obtain ⟨hgroup, hfirst⟩ := List.mem_filter.1 hgroup
        obtain ⟨m, -, rfl⟩ := exists_component hgroup
        have htogether := (mem_component hg).1 hid
        have : first ∈ component (listed g.below) g.ids m :=
          (mem_component hg).2 (htogether.trans ((mem_component hg).1 hown).symm)
        simp [this] at hfirst
      · exact ih

/-! ## §2. Blocked cells. -/

/-- A cycle of the run-set leads to the cell. -/
def Barred (g : Graph) (roots : OrderedSet CellId) (id : CellId) : Prop :=
  ∃ o ∈ g.descendants roots, g.OnCycle o ∧ ReflTransGen g.Edge o id

theorem Barred.mem_descendants (hg : g.WellFormed) (h : g.Barred roots id) :
    id ∈ g.descendants roots := by
  obtain ⟨o, ho, -, hpath⟩ := h
  exact descendants_closed hg ho hpath

/-- A cell that is barred without being on a cycle has a barred parent. -/
theorem Barred.exists_parent (h : g.Barred roots id) (hid : ¬ g.OnCycle id) :
    ∃ p, g.Edge p id ∧ g.Barred roots p := by
  obtain ⟨o, ho, hcycle, hpath⟩ := h
  rcases ReflTransGen.cases_tail hpath with heq | ⟨p, hop, hedge⟩
  · rw [heq] at hid
    exact absurd hcycle hid
  · exact ⟨p, hedge, o, ho, hcycle, hop⟩

theorem barred_of_onCycle (hid : id ∈ g.descendants roots) (h : g.OnCycle id) :
    g.Barred roots id := ⟨id, hid, h, .refl⟩

/-- The groups that a plan blocks. -/
def groups (g : Graph) (roots : OrderedSet CellId) : List (List CellId) :=
  cyclicComponents (listed g.below) g.ids (g.descendants roots)

theorem mem_groups (hg : g.WellFormed) : id ∈ (g.groups roots).flatten ↔
    id ∈ g.descendants roots ∧ g.OnCycle id := by
  rw [groups, mem_cyclicComponents hg]
  constructor
  · intro h
    obtain ⟨m, hm, htogether⟩ := h
    exact ⟨descendants_closed hg hm htogether.1.to_reflTransGen, htogether.2.trans htogether.1⟩
  · intro h
    exact ⟨id, h.1, h.2, h.2⟩

/-- The cells on cycles that a plan blocks. -/
def blockedOnCycle (g : Graph) (roots : OrderedSet CellId) : List (CellId × BlockReason) :=
  ((g.groups roots).zip ((g.groups roots).map g.shortestCycle)).flatMap fun (group, cycle) =>
    group.map fun id => (id, .inCycle cycle)

theorem blockedOnCycle_ids (g : Graph) (roots : OrderedSet CellId) :
    (g.blockedOnCycle roots).map (·.1) = (g.groups roots).flatten := by
  have key : ∀ groups : List (List CellId),
      ((groups.zip (groups.map g.shortestCycle)).flatMap fun p =>
        p.1.map fun id => (id, BlockReason.inCycle p.2)).map (·.1) = groups.flatten := by
    intro groups
    induction groups with
    | nil => rfl
    | cons group rest ih =>
      rw [List.map_cons, List.zip_cons_cons, List.flatMap_cons, List.map_append, ih,
        List.flatten_cons, List.map_map]
      congr 1
      exact List.map_id' group
  exact key _

theorem mem_blockedOnCycle (h : (id, reason) ∈ g.blockedOnCycle roots) :
    ∃ cycle, reason = .inCycle cycle := by
  obtain ⟨⟨group, cycle⟩, -, hmem⟩ := List.mem_flatMap.1 h
  obtain ⟨_, -, heq⟩ := List.mem_map.1 hmem
  exact ⟨cycle, (Prod.mk.inj heq).2.symm⟩

/-- The live cells on cycles of the run-set. -/
def cyclic (g : Graph) (roots : OrderedSet CellId) : List CellId :=
  g.ids.filter fun id => (g.groups roots).any fun group => group.contains id

theorem mem_cyclic (hg : g.WellFormed) : id ∈ g.cyclic roots ↔
    id ∈ g.descendants roots ∧ g.OnCycle id := by
  rw [← mem_groups hg, List.mem_flatten]
  simp only [cyclic, List.mem_filter, List.any_eq_true, List.contains_iff_mem]
  constructor
  · intro h
    exact h.2
  · intro h
    obtain ⟨group, hgroup, hid⟩ := h
    have honCycle := ((mem_groups hg).1 (List.mem_flatten.2 ⟨group, hgroup, hid⟩)).2
    exact ⟨mem_ids.2 honCycle.contains, group, hgroup, hid⟩

/-- What a plan says about a cell that may lie below a cycle. -/
def downstream? (g : Graph) (roots : OrderedSet CellId) (id : CellId) :
    Option (CellId × BlockReason) :=
  if (g.cyclic roots).contains id then none
  else ((g.cyclic roots).find? fun origin => (listed g.below origin).contains id).map fun origin =>
    (id, .downstreamOf origin)

theorem downstream?_eq_some (hg : g.WellFormed) {blocked : CellId × BlockReason}
    (h : g.downstream? roots id = some blocked) : ∃ o, blocked = (id, .downstreamOf o) ∧
      o ∈ g.descendants roots ∧ g.OnCycle o ∧ TransGen g.Edge o id := by
  unfold downstream? at h
  split at h
  · cases h
  · obtain ⟨o, ho, rfl⟩ := Option.map_eq_some_iff.1 h
    have hbelow := List.find?_some ho
    obtain ⟨hmem, honCycle⟩ := (mem_cyclic hg).1 (List.mem_of_find?_eq_some ho)
    exact ⟨o, rfl, hmem, honCycle, (mem_listed_below hg).1 (List.contains_iff_mem.1 hbelow)⟩

theorem downstream?_isSome (hg : g.WellFormed) (hnot : ¬ g.OnCycle id)
    (h : g.Barred roots id) : (g.downstream? roots id).isSome = true := by
  obtain ⟨o, ho, honCycle, hpath⟩ := h
  have hout : (g.cyclic roots).contains id = false := by
    rw [Bool.eq_false_iff]
    intro hmem
    exact hnot ((mem_cyclic hg).1 (List.contains_iff_mem.1 hmem)).2
  unfold downstream?
  rw [hout, if_neg Bool.false_ne_true, Option.isSome_map, List.find?_isSome]
  refine ⟨o, (mem_cyclic hg).2 ⟨ho, honCycle⟩, List.contains_iff_mem.2 ?_⟩
  rw [mem_listed_below hg]
  rcases reflTransGen_iff_eq_or_transGen.1 hpath with rfl | hpath
  · exact absurd honCycle hnot
  · exact hpath

/-- A plan blocks first the cells on cycles, group by group, and then those below. -/
theorem plan_blocked (g : Graph) (roots : OrderedSet CellId) : (g.plan roots).blocked =
    g.blockedOnCycle roots ++ (g.descendants roots).filterMap (g.downstream? roots) := rfl

theorem plan_order (g : Graph) (roots : OrderedSet CellId) : (g.plan roots).order =
    g.orderOf ((g.descendants roots).filter fun id =>
      !((g.plan roots).blocked.map (·.1)).contains id) := rfl

/-- What the reasons say is so. -/
theorem plan_blocked_reason (hg : g.WellFormed) (h : (id, reason) ∈ (g.plan roots).blocked) :
    id ∈ g.descendants roots ∧ match reason with
      | .inCycle _ => g.OnCycle id
      | .downstreamOf o => ¬ g.OnCycle id ∧ g.OnCycle o ∧ TransGen g.Edge o id := by
  rw [plan_blocked, List.mem_append] at h
  rcases h with h | h
  · obtain ⟨cycle, rfl⟩ := mem_blockedOnCycle h
    have : id ∈ (g.blockedOnCycle roots).map (·.1) := List.mem_map_of_mem h
    rw [blockedOnCycle_ids, mem_groups hg] at this
    exact this
  · obtain ⟨a, ha, hsome⟩ := List.mem_filterMap.1 h
    have hnot : ¬ g.OnCycle a := by
      intro honCycle
      have := (mem_cyclic hg).2 ⟨ha, honCycle⟩
      simp [downstream?, this] at hsome
    obtain ⟨o, heq, -, honCycle, hpath⟩ := downstream?_eq_some hg hsome
    obtain ⟨rfl, rfl⟩ := Prod.mk.inj heq
    exact ⟨ha, hnot, honCycle, hpath⟩

/-- Exactly the barred cells are blocked. -/
theorem mem_plan_blocked (hg : g.WellFormed) :
    id ∈ (g.plan roots).blocked.map (·.1) ↔ g.Barred roots id := by
  rw [plan_blocked, List.map_append, List.mem_append, blockedOnCycle_ids, mem_groups hg]
  constructor
  · intro h
    rcases h with h | h
    · exact barred_of_onCycle h.1 h.2
    · obtain ⟨p, hp, rfl⟩ := List.mem_map.1 h
      obtain ⟨a, -, hsome⟩ := List.mem_filterMap.1 hp
      obtain ⟨o, rfl, ho, honCycle, hpath⟩ := downstream?_eq_some hg hsome
      exact ⟨o, ho, honCycle, hpath.to_reflTransGen⟩
  · intro h
    have hid := h.mem_descendants hg
    by_cases honCycle : g.OnCycle id
    · exact .inl ⟨hid, honCycle⟩
    · obtain ⟨p, hp⟩ := Option.isSome_iff_exists.1 (downstream?_isSome hg honCycle h)
      obtain ⟨o, rfl, -⟩ := downstream?_eq_some hg hp
      exact .inr (List.mem_map.2 ⟨_, List.mem_filterMap.2 ⟨id, hid, hp⟩, rfl⟩)

theorem plan_blocked_nodup (hg : g.WellFormed) : ((g.plan roots).blocked.map (·.1)).Nodup := by
  rw [plan_blocked, List.map_append, blockedOnCycle_ids, List.nodup_append]
  have hids : ∀ l : List CellId,
      ((l.filterMap (g.downstream? roots)).map (·.1)).Sublist l := by
    intro l
    induction l with
    | nil => exact List.Sublist.slnil
    | cons first rest ih =>
      rw [List.filterMap_cons]
      split
      · exact ih.cons first
      · rename_i p hp
        obtain ⟨o, rfl, -⟩ := downstream?_eq_some hg hp
        exact ih.cons_cons first
  -- a cell on a cycle is not downstream of one, so that no cell is blocked twice
  refine ⟨cyclicComponents_nodup hg, (descendants_nodup hg).sublist (hids _), ?_⟩
  intro x hx y hy hxy
  subst hxy
  obtain ⟨p, hp, rfl⟩ := List.mem_map.1 hy
  obtain ⟨a, -, hsome⟩ := List.mem_filterMap.1 hp
  obtain ⟨o, rfl, -⟩ := downstream?_eq_some hg hsome
  have := (mem_cyclic hg).2 ((mem_groups hg).1 hx)
  simp [downstream?, this] at hsome

/-! ## §3. Ordered cells. -/

/-- The cells of a run-set that are to be ordered are those that are not barred. -/
theorem mem_unblocked (hg : g.WellFormed) : (id ∈ (g.descendants roots).filter fun id =>
      !((g.plan roots).blocked.map (·.1)).contains id) ↔
    id ∈ g.descendants roots ∧ ¬ g.Barred roots id := by
  simp only [List.mem_filter, Bool.not_eq_true', ← Bool.not_eq_true, List.contains_iff_mem,
    mem_plan_blocked hg]

theorem mem_plan_order (hg : g.WellFormed) :
    id ∈ (g.plan roots).order ↔ id ∈ g.descendants roots ∧ ¬ g.Barred roots id := by
  rw [plan_order, ← mem_unblocked hg]
  constructor
  · intro h
    exact orderOf_subset h
  · intro h
    -- the order is complete because no cell on a cycle is left to be ordered
    refine orderOf_complete hg ((descendants_nodup hg).sublist List.filter_sublist) ?_ h
    intro a ha honCycle
    obtain ⟨hmem, hfree⟩ := (mem_unblocked hg).1 ha
    exact hfree (barred_of_onCycle hmem honCycle)

theorem plan_order_nodup (hg : g.WellFormed) : (g.plan roots).order.Nodup :=
  orderOf_nodup ((descendants_nodup hg).sublist List.filter_sublist)

/-- No cell is ordered before one that it depends on. -/
theorem plan_order_pairwise (hg : g.WellFormed) :
    (g.plan roots).order.Pairwise fun a b => ¬ g.Edge b a := orderOf_pairwise hg

end Notebook.Graph
