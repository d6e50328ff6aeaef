/-
  Notebook.Proofs.Graph.Groups — the cyclic groups of a run, found in the components of the graph.

  The components of a multigraph split its nodes: two nodes are in one component when each leads to
  the other.  A cell lies on a cycle just when its component has another cell, since no cell has an
  edge to itself, and then its component is the group of the cells that lie on a cycle with it.  So
  the components of several cells that a run meets are the groups that the graph without indices
  finds cell by cell.  Both come in the order of their earliest cells, and a list that is sorted
  that way is known by its elements.

  Main results:
    * `StronglyConnected` — what components are,
    * `stronglyConnected_components` — those that are found by reachability are,
    * `groups_pairwise` — the groups that are found cell by cell come by their earliest cells,
    * `map_cyclicGroups` — both kinds of groups are the same.
-/
import Notebook.Proofs.Graph.Counters
import Notebook.Proofs.Graph.Plan

namespace Notebook

open Relation

namespace Graph

variable {g : Graph} {roots : OrderedSet CellId} {members group other : List CellId}
  {a b id : CellId}

/-! ## §1. Groups, cell by cell. -/

/-- Some cell of `group` is registered before all cells of `other`. -/
def Earlier (g : Graph) (group other : List CellId) : Prop :=
  ∃ a ∈ group, ∀ b ∈ other, g.place a < g.place b

/-- A list in which earlier groups come first is known by its groups. -/
theorem eq_of_earlier {groups groups' : List (List CellId)} (h : groups.Pairwise g.Earlier)
    (h' : groups'.Pairwise g.Earlier) (hmem : ∀ group, group ∈ groups ↔ group ∈ groups') :
    groups = groups' := by
  have hirrefl : Std.Irrefl g.Earlier := ⟨fun group hself => by
    obtain ⟨a, ha, hlt⟩ := hself
    exact Nat.lt_irrefl _ (hlt a ha)⟩
  have hanti : Std.Antisymm g.Earlier := ⟨fun group other h h' => by
    obtain ⟨a, ha, hlt⟩ := h
    obtain ⟨b, hb, hgt⟩ := h'
    exact absurd (hlt b hb) (Nat.lt_asymm (hgt a ha))⟩
  exact List.Pairwise.eq_of_mem_iff h h' hmem

/-- The group of a cell on a cycle contains it. -/
theorem self_mem_component (hg : g.WellFormed) (h : g.OnCycle id) :
    id ∈ component (listed g.below) g.ids id := (mem_component hg).2 ⟨h, h⟩

/-- Cells on a cycle together have the same group. -/
theorem component_eq (hg : g.WellFormed) (h : g.Together a b) :
    component (listed g.below) g.ids a = component (listed g.below) g.ids b := by
  have hmem : ∀ id, id ∈ component (listed g.below) g.ids a ↔
      id ∈ component (listed g.below) g.ids b := by
    intro id
    rw [mem_component hg, mem_component hg]
    exact ⟨fun ha => h.symm.trans ha, fun hb => h.trans hb⟩
  unfold component at hmem ⊢
  refine List.filter_congr fun id hid => ?_
  have hiff := hmem id
  rw [List.mem_filter, List.mem_filter, and_iff_right hid, and_iff_right hid] at hiff
  rw [Bool.eq_iff_iff]
  exact hiff

/-- The groups are those of the members that lie on a cycle. -/
theorem mem_cyclicComponents_iff (hg : g.WellFormed) :
    group ∈ cyclicComponents (listed g.below) g.ids members ↔
      ∃ m ∈ members, g.OnCycle m ∧ group = component (listed g.below) g.ids m := by
  constructor
  · intro h
    induction members with
    | nil => cases h
    | cons first rest ih =>
      simp only [cyclicComponents] at h
      split at h
      · rename_i hcycle
        rcases List.mem_cons.1 h with h | h
        · exact ⟨first, List.mem_cons_self, (onCycle_below hg).1 hcycle, h⟩
        · obtain ⟨m, hm, hgroup⟩ := ih (List.mem_filter.1 h).1
          exact ⟨m, List.mem_cons_of_mem _ hm, hgroup⟩
      · obtain ⟨m, hm, hgroup⟩ := ih h
        exact ⟨m, List.mem_cons_of_mem _ hm, hgroup⟩
  · intro h
    obtain ⟨m, hm, hcycle, rfl⟩ := h
    have hself : g.Together m m := ⟨hcycle, hcycle⟩
    obtain ⟨group, hgroup, hin⟩ := exists_group hg hm hself
    obtain ⟨m', -, rfl⟩ := exists_component hgroup
    rwa [← component_eq hg ((mem_component hg).1 hin)]

/-- The groups come in the order of their first members. -/
theorem cyclicComponents_pairwise (hg : g.WellFormed) (hranked : Ranked g.place members) :
    (cyclicComponents (listed g.below) g.ids members).Pairwise fun group other =>
      ∃ a ∈ group, a ∈ members ∧ ∀ b ∈ other, b ∈ members → g.place a < g.place b := by
  induction members with
  | nil => exact List.Pairwise.nil
  | cons first rest ih =>
    obtain ⟨hfirst, hrest⟩ := List.pairwise_cons.1 hranked
    -- later groups that do not hold the first member stay in their order
    have hlater : ∀ group other : List CellId, first ∉ other →
        (∃ a ∈ group, a ∈ rest ∧ ∀ b ∈ other, b ∈ rest → g.place a < g.place b) →
        ∃ a ∈ group, a ∈ first :: rest ∧ ∀ b ∈ other, b ∈ first :: rest →
          g.place a < g.place b := by
      intro group other hout hex
      obtain ⟨a, ha, hin, hlt⟩ := hex
      refine ⟨a, ha, List.mem_cons_of_mem _ hin, fun b hb hmem => hlt b hb ?_⟩
      refine (List.mem_cons.1 hmem).resolve_left fun heq => ?_
      exact hout (heq ▸ hb)
    simp only [cyclicComponents]
    split
    · rename_i hcycle
      have hself := self_mem_component hg ((onCycle_below hg).1 hcycle)
      refine List.pairwise_cons.2 ⟨fun other hother => ?_, ?_⟩
      · have hout : first ∉ other := by simpa using (List.mem_filter.1 hother).2
        refine ⟨first, hself, List.mem_cons_self, fun b hb hmem => ?_⟩
        rcases List.mem_cons.1 hmem with rfl | hmem
        · exact absurd hb hout
        · exact hfirst b hmem
      · refine ((ih hrest).filter _).imp_of_mem fun {group other} _ hother hlt => ?_
        exact hlater group other (by simpa using (List.mem_filter.1 hother).2) hlt
    · rename_i hcycle
      refine (ih hrest).imp_of_mem fun {group other} _ hother hlt => hlater group other ?_ hlt
      intro hin
      have htogether := together_of_group hg hother hin hin
      exact hcycle ((onCycle_below hg).2 htogether.1)

/-- The groups of a run come in the order of their earliest cells. -/
theorem groups_pairwise (hg : g.WellFormed) (hranked : Ranked g.place g.ids) :
    (g.groups roots).Pairwise g.Earlier := by
  have hfirst := cyclicComponents_pairwise hg
    (hranked.sublist (List.filter_sublist : (g.descendants roots).Sublist g.ids))
  refine hfirst.imp_of_mem fun {group other} _ hother hlt => ?_
  obtain ⟨a, ha, -, hlt⟩ := hlt
  refine ⟨a, ha, fun b hb => hlt b hb ?_⟩
  exact ((mem_groups hg).1 (List.mem_flatten.2 ⟨other, hother, hb⟩)).1

end Graph

namespace IndexedGraph

variable {g : IndexedGraph} {roots members nodes : OrderedSet CellId} {a b id : CellId}
  {edges : List (CellId × CellId)} {components : List (List CellId)} {group : List CellId}

/-! ## §2. Components. -/

/-- The lists are the components of a multigraph: each node is in one of them, and two nodes are in
the same one when each leads to the other. -/
structure StronglyConnected (nodes : OrderedSet CellId) (edges : List (CellId × CellId))
    (components : List (List CellId)) : Prop where
  nodup : components.flatten.Nodup
  mem_flatten : ∀ id, id ∈ components.flatten ↔ nodes.has id = true
  mem_iff : ∀ group ∈ components, ∀ a ∈ group, ∀ b, b ∈ group ↔
    ReflTransGen (fun a b => (a, b) ∈ edges) a b ∧ ReflTransGen (fun a b => (a, b) ∈ edges) b a

section Components

variable (h : g.Exact) (hs : StronglyConnected g.nodes g.edges components)
  (hgroup : group ∈ components) (ha : a ∈ group)

theorem Exact.edge_eq (h : g.Exact) : (fun a b => (a, b) ∈ g.edges) = g.Edge := by
  funext a b
  exact propext (h.wired.mem_iff a b)

include hs hgroup in
theorem StronglyConnected.group_nodup : group.Nodup :=
  (List.nodup_flatten.1 hs.nodup).1 group hgroup

include hs hgroup ha in
theorem StronglyConnected.live (h : g.Exact) : g.contains a = true := by
  rw [← h.nodes, ← hs.mem_flatten]
  exact List.mem_flatten.2 ⟨group, hgroup, ha⟩

include h hs hgroup ha in
/-- Another cell of a component lies on a cycle with a cell of it. -/
theorem StronglyConnected.together (hb : b ∈ group) (hne : a ≠ b) : g.Together a b := by
  have hpaths := (hs.mem_iff group hgroup a ha b).1 hb
  rw [h.edge_eq] at hpaths
  constructor
  · exact (reflTransGen_iff_eq_or_transGen.1 hpaths.1).resolve_left hne.symm
  · exact (reflTransGen_iff_eq_or_transGen.1 hpaths.2).resolve_left hne

include h hs hgroup ha in
/-- A cell lies on a cycle when its component has several cells. -/
theorem StronglyConnected.several_iff : 1 < group.length ↔ g.OnCycle a := by
  constructor
  · intro hlong
    have hother : ∃ b ∈ group, a ≠ b := by
      by_contra hnone
      have hsub : group ⊆ [a] := fun b hb => List.mem_singleton.2 <| by
        by_contra hne
        exact hnone ⟨b, hb, Ne.symm hne⟩
      have hle := (List.subperm_of_subset (hs.group_nodup hgroup) hsub).length_le
      rw [List.length_singleton] at hle
      omega
    obtain ⟨b, hb, hne⟩ := hother
    have htogether := hs.together h hgroup ha hb hne
    exact htogether.1.trans htogether.2
  · intro hcycle
    -- the cell after it on the cycle is in the component, too
    obtain ⟨b, hedge, hback⟩ := TransGen.head'_iff.1 hcycle
    have hb : b ∈ group := by
      rw [hs.mem_iff group hgroup a ha, h.edge_eq]
      exact ⟨.single hedge, hback⟩
    have hpair : [a, b].Nodup := by simpa using hedge.ne
    have hsub : [a, b] ⊆ group := by simp [ha, hb]
    exact (List.subperm_of_subset hpair hsub).length_le

include h hs hgroup ha in
/-- The component of a cell on a cycle is the group of the cells that lie on a cycle with it. -/
theorem StronglyConnected.group_eq (hcycle : g.OnCycle a) :
    g.ids.filter (OrderedSet.ofList group).has =
      Graph.component (Graph.listed g.below) g.ids a := by
  refine List.filter_congr fun b hb => ?_
  have hmem := Graph.mem_component h.wellFormed (a := a) (b := b)
  unfold Graph.component at hmem
  rw [List.mem_filter, and_iff_right hb] at hmem
  rw [Bool.eq_iff_iff, OrderedSet.has_ofList, hmem]
  constructor
  · intro hin
    by_cases hne : a = b
    · subst hne
      exact ⟨hcycle, hcycle⟩
    · exact hs.together h hgroup ha hin hne
  · intro htogether
    rw [hs.mem_iff group hgroup a ha, h.edge_eq]
    exact ⟨htogether.1.to_reflTransGen, htogether.2.to_reflTransGen⟩

end Components

/-- The group of a node: the nodes that it reaches and that reach it. -/
def groupOf (g : IndexedGraph) (id : CellId) : List CellId :=
  g.nodes.toList.filter fun other =>
    (g.reachedFrom (.ofList [id])).has other && (g.reachedFrom (.ofList [other])).has id

theorem Exact.has_reachedFrom_one (h : g.Exact) (ha : g.contains a = true) :
    (g.reachedFrom (.ofList [a])).has b = true ↔ ReflTransGen g.Edge a b := by
  rw [h.mem_reachedFrom, Graph.mem_descendants h.wellFormed]
  constructor
  · intro hex
    obtain ⟨r, hr, -, hpath⟩ := hex
    rw [OrderedSet.has_ofList, List.mem_singleton] at hr
    exact hr ▸ hpath
  · intro hpath
    exact ⟨a, OrderedSet.has_ofList.2 (List.mem_singleton_self a), ha, hpath⟩

theorem Exact.mem_groupOf (h : g.Exact) (ha : g.contains a = true) : b ∈ g.groupOf a ↔
    g.contains b = true ∧ ReflTransGen g.Edge a b ∧ ReflTransGen g.Edge b a := by
  unfold groupOf
  rw [List.mem_filter, OrderedSet.mem_toList, h.nodes, Bool.and_eq_true,
    h.has_reachedFrom_one ha]
  refine and_congr_right fun hb => and_congr_right fun _ => ?_
  exact h.has_reachedFrom_one hb

/-- Going through the nodes, the groups so far hold all nodes that were met. -/
structure Grouped (g : IndexedGraph) (met : List CellId) (groups : List (List CellId)) : Prop where
  nodup : groups.flatten.Nodup
  own : ∀ group ∈ groups, ∃ a, g.contains a = true ∧ group = g.groupOf a
  met : ∀ a ∈ met, a ∈ groups.flatten

theorem Grouped.step {met : List CellId} {groups : List (List CellId)} (h : g.Exact)
    (hgrouped : g.Grouped met groups) (hid : g.contains id = true) :
    g.Grouped (met ++ [id]) (if groups.any fun group => group.contains id then groups
      else groups ++ [g.groupOf id]) := by
  have hself : id ∈ g.groupOf id := (h.mem_groupOf hid).2 ⟨hid, .refl, .refl⟩
  split
  · rename_i hany
    obtain ⟨group, hgroup, hin⟩ := List.any_eq_true.1 hany
    refine ⟨hgrouped.nodup, hgrouped.own, fun a ha => ?_⟩
    rcases List.mem_append.1 ha with ha | ha
    · exact hgrouped.met a ha
    · obtain rfl := List.mem_singleton.1 ha
      exact List.mem_flatten.2 ⟨group, hgroup, List.contains_iff_mem.1 hin⟩
  · rename_i hnone
    have hout : ∀ group ∈ groups, id ∉ group := fun group hgroup hin =>
      hnone (List.any_eq_true.2 ⟨group, hgroup, List.contains_iff_mem.2 hin⟩)
    refine ⟨?_, fun group hgroup => ?_, fun a ha => ?_⟩
    · rw [List.flatten_append, List.flatten_singleton, List.nodup_append]
      refine ⟨hgrouped.nodup, (OrderedSet.toList_nodup g.nodes).filter _, ?_⟩
      rintro b hb _ hb' rfl
      -- a group that shared a cell with the new one would hold the node
      obtain ⟨group, hgroup, hin⟩ := List.mem_flatten.1 hb
      obtain ⟨a, ha, rfl⟩ := hgrouped.own group hgroup
      obtain ⟨-, hab, hba⟩ := (h.mem_groupOf ha).1 hin
      obtain ⟨-, hib, hbi⟩ := (h.mem_groupOf hid).1 hb'
      exact hout _ hgroup ((h.mem_groupOf ha).2 ⟨hid, hab.trans hbi, hib.trans hba⟩)
    · rcases List.mem_append.1 hgroup with hgroup | hgroup
      · exact hgrouped.own group hgroup
      · exact ⟨id, hid, List.mem_singleton.1 hgroup⟩
    · rw [List.flatten_append, List.flatten_singleton]
      rcases List.mem_append.1 ha with ha | ha
      · exact List.mem_append_left _ (hgrouped.met a ha)
      · exact List.mem_append_right _ (List.mem_singleton.1 ha ▸ hself)

theorem Grouped.foldl {met ids : List CellId} {groups : List (List CellId)} (h : g.Exact)
    (hgrouped : g.Grouped met groups) (hids : ∀ id ∈ ids, g.contains id = true) :
    g.Grouped (met ++ ids) (ids.foldl (fun groups id =>
      if groups.any fun group => group.contains id then groups
      else groups ++ [g.groupOf id]) groups) := by
  induction ids generalizing met groups with
  | nil => rwa [List.append_nil]
  | cons first rest ih =>
    have hstep := hgrouped.step h (hids first List.mem_cons_self)
    have hrest := ih hstep fun id hid => hids id (List.mem_cons_of_mem _ hid)
    rwa [List.append_assoc] at hrest

/-- The components that are found by reachability are the components of the graph. -/
theorem stronglyConnected_components (h : g.Exact) :
    StronglyConnected g.nodes g.edges g.components := by
  have hnode : ∀ id ∈ g.nodes.toList, g.contains id = true := fun id hid => by
    rw [← h.nodes]
    exact OrderedSet.mem_toList.1 hid
  have heq : g.components = g.nodes.toList.foldl (fun groups id =>
      if groups.any fun group => group.contains id then groups
      else groups ++ [g.groupOf id]) [] := by
    refine List.foldl_ext _ _ _ fun groups id hid => ?_
    -- what a node reaches was looked up in a table
    have hown : (g.nodes.toList.filter fun other =>
        ((Table.tabulate g.nodes.toList fun id => g.reachedFrom (.ofList [id])).get? id |>.getD
          .empty).has other &&
        ((Table.tabulate g.nodes.toList fun id => g.reachedFrom (.ofList [id])).get? other |>.getD
          .empty).has id) = g.groupOf id := by
      refine List.filter_congr fun other hother => ?_
      rw [Table.get?_tabulate, if_pos hid, Table.get?_tabulate, if_pos hother, Option.getD_some,
        Option.getD_some]
    dsimp only
    rw [hown]
  have hgrouped : g.Grouped ([] ++ g.nodes.toList) g.components := by
    rw [heq]
    refine Grouped.foldl h ⟨List.nodup_nil, fun group hgroup => ?_, fun a ha => ?_⟩ hnode
    · cases hgroup
    · cases ha
  refine ⟨hgrouped.nodup, fun id => ⟨fun hid => ?_, fun hid => ?_⟩, fun group hgroup a ha b => ?_⟩
  · obtain ⟨group, hgroup, hin⟩ := List.mem_flatten.1 hid
    obtain ⟨a, ha, rfl⟩ := hgrouped.own group hgroup
    rw [h.nodes]
    exact ((h.mem_groupOf ha).1 hin).1
  · exact hgrouped.met id (OrderedSet.mem_toList.2 hid)
  · obtain ⟨c, hc, rfl⟩ := hgrouped.own group hgroup
    obtain ⟨hlive, hca, hac⟩ := (h.mem_groupOf hc).1 ha
    rw [h.mem_groupOf hc, h.edge_eq]
    constructor
    · intro hb
      exact ⟨hac.trans hb.2.1, hb.2.2.trans hca⟩
    · intro hb
      refine ⟨?_, hca.trans hb.1, hb.2.trans hac⟩
      rcases ReflTransGen.cases_tail hb.1 with heq | ⟨c, -, hedge⟩
      · exact heq ▸ hlive
      · exact hedge.contains_right

section Components

variable (h : g.Exact) (hs : StronglyConnected g.nodes g.edges components)
  (hgroup : group ∈ components) (ha : a ∈ group)

/-! ## §3. The components that a run meets. -/

theorem mem_cyclicGroups {s : OrderedSet CellId} : s ∈ g.cyclicGroups components members ↔
    ∃ group ∈ components, 1 < group.length ∧ s = .ofList group ∧
      ∃ a ∈ group, members.has a = true := by
  unfold cyclicGroups
  rw [List.mem_mergeSort, List.mem_filter]
  simp only [List.mem_map, List.mem_filter, decide_eq_true_eq, List.any_eq_true,
    OrderedSet.mem_toList]
  constructor
  · intro hs
    obtain ⟨⟨group, ⟨hgroup, hlong⟩, rfl⟩, a, ha, hmember⟩ := hs
    exact ⟨group, hgroup, hlong, rfl, a, OrderedSet.has_ofList.1 ha, hmember⟩
  · intro hs
    obtain ⟨group, hgroup, hlong, rfl, a, ha, hmember⟩ := hs
    exact ⟨⟨group, ⟨hgroup, hlong⟩, rfl⟩, a, OrderedSet.has_ofList.2 ha, hmember⟩

include h hs in
theorem StronglyConnected.live_of_cyclicGroups {s : OrderedSet CellId}
    (hsin : s ∈ g.cyclicGroups components members) (ha : s.has a = true) :
    g.contains a = true := by
  obtain ⟨group, hgroup, -, rfl, -⟩ := mem_cyclicGroups.1 hsin
  exact hs.live hgroup (OrderedSet.has_ofList.1 ha) h

/-- The place of the earliest cell is that of a cell. -/
theorem earliest_spec {s : OrderedSet CellId} (ha : s.has a = true) :
    ∃ b, s.has b = true ∧ g.earliest s = g.place b ∧
      ∀ c, s.has c = true → g.earliest s ≤ g.place c := by
  have hplace : ∀ c, s.has c = true → g.place c ∈ s.toList.map g.place := fun c hc =>
    List.mem_map_of_mem (OrderedSet.mem_toList.2 hc)
  cases hmin : (s.toList.map g.place).min? with
  | none =>
    rw [List.min?_eq_none_iff] at hmin
    exact absurd (hmin ▸ hplace a ha) List.not_mem_nil
  | some least =>
    obtain ⟨hin, hle⟩ := List.min?_eq_some_iff.1 hmin
    obtain ⟨b, hb, rfl⟩ := List.mem_map.1 hin
    unfold earliest
    rw [hmin, Option.getD_some]
    exact ⟨b, OrderedSet.mem_toList.1 hb, rfl, fun c hc => hle _ (hplace c hc)⟩

include hs in
/-- Different components have no cell in common. -/
theorem StronglyConnected.cyclicGroups_apart : (g.cyclicGroups components members).Pairwise
    fun s t => ∀ a, s.has a = true → ¬ t.has a = true := by
  have hsets : ((components.filter fun ids => 1 < ids.length).map
      OrderedSet.ofList).Pairwise fun s t => ∀ a, s.has a = true → ¬ t.has a = true := by
    refine List.pairwise_map.2 (((List.nodup_flatten.1 hs.nodup).2.filter _).imp ?_)
    intro s t hst a ha hb
    exact hst (OrderedSet.has_ofList.1 ha) (OrderedSet.has_ofList.1 hb)
  refine ((List.mergeSort_perm _ _).pairwise_iff fun {s t} hst a hb ha => hst a ha hb).2 ?_
  exact hsets.filter _

include h hs in
/-- The components that a run meets come in the order of their earliest cells. -/
theorem cyclicGroups_pairwise : ((g.cyclicGroups components members).map fun s =>
    g.ids.filter s.has).Pairwise g.Earlier := by
  have hsorted : (g.cyclicGroups components members).Pairwise fun s t =>
      g.earliest s ≤ g.earliest t := pairwise_mergeSort_rank g.earliest _
  refine List.pairwise_map.2 ((hsorted.and hs.cyclicGroups_apart).imp_of_mem ?_)
  intro s t hsin htin hst
  have hlive : ∀ a, s.has a = true → g.contains a = true := fun a ha =>
    hs.live_of_cyclicGroups h hsin ha
  obtain ⟨group, hgroup, -, rfl, m, hm, -⟩ := mem_cyclicGroups.1 hsin
  obtain ⟨a, ha, hearliest, -⟩ := earliest_spec (g := g) (OrderedSet.has_ofList.2 hm)
  refine ⟨a, List.mem_filter.2 ⟨Graph.mem_ids.2 (hlive a ha), ha⟩, fun b hb => ?_⟩
  have hb : t.has b = true := (List.mem_filter.1 hb).2
  obtain ⟨-, -, -, hleast⟩ := earliest_spec (g := g) hb
  refine lt_of_le_of_ne ((hearliest ▸ hst.1).trans (hleast b hb)) fun heq => ?_
  -- equal places would put one cell into both groups
  have hsame := h.place_injective (hlive a ha) (hs.live_of_cyclicGroups h htin hb) heq
  exact hst.2 a ha (hsame ▸ hb)

include h hs in
/-- The components that a run meets are the groups that the graph without indices finds. -/
theorem map_cyclicGroups : ((g.cyclicGroups components (g.reachedFrom roots)).map fun s =>
    g.ids.filter s.has) = g.toGraph.groups roots := by
  refine Graph.eq_of_earlier (cyclicGroups_pairwise h hs)
    (Graph.groups_pairwise h.wellFormed h.ranked_ids) fun group => ?_
  rw [Graph.groups, Graph.mem_cyclicComponents_iff h.wellFormed, List.mem_map]
  constructor
  · intro hex
    obtain ⟨s, hs', rfl⟩ := hex
    obtain ⟨group, hgroup, hlong, rfl, a, ha, hmember⟩ := mem_cyclicGroups.1 hs'
    have hcycle := (hs.several_iff h hgroup ha).1 hlong
    exact ⟨a, (h.mem_reachedFrom roots).1 hmember, hcycle, hs.group_eq h hgroup ha hcycle⟩
  · intro hex
    obtain ⟨m, hm, hcycle, rfl⟩ := hex
    have hnode : m ∈ components.flatten := by
      rw [hs.mem_flatten, h.nodes]
      exact hcycle.contains
    obtain ⟨group, hgroup, hin⟩ := List.mem_flatten.1 hnode
    refine ⟨.ofList group, mem_cyclicGroups.2 ⟨group, hgroup, ?_, rfl, m, hin, ?_⟩, ?_⟩
    · exact (hs.several_iff h hgroup hin).2 hcycle
    · exact (h.mem_reachedFrom roots).2 hm
    · exact hs.group_eq h hgroup hin hcycle

end Components

end IndexedGraph

end Notebook
