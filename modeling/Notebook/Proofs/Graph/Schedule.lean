/-
  Notebook.Proofs.Graph.Schedule — what is worked out on the edges is what the graph says.

  An order, the cycle that is reported without one, and a plan come out of an indexed graph as they
  do of the graph without indices.  For a plan the entries of the blocked cells have to be compared.
  The entries of the cells on cycles have different cells, so all of them are kept.  Those of the
  cells below are sorted by the cell and then by the blocked cell above it: cell by cell they list
  all blocked cells above, and only the first entry of a cell is kept, which names the earliest.

  Main results:
    * `Exact.topologicalOrder_eq` — orders and reported cycles are the same,
    * `foldl_block_of_nodup` / `foldl_block_causes` — which entries are kept,
    * `Exact.downstream_eq` — the sorted entries go cell by cell,
    * `planWith_eq` — plans are the same, whichever way the components were found.
-/
import Notebook.Proofs.Graph.Groups
import Notebook.Proofs.Graph.Search

namespace Notebook

open Relation

namespace IndexedGraph

variable {g : IndexedGraph} {a b id : CellId} {roots members s t : OrderedSet CellId}
  {ids cells : List CellId} {components : List (List CellId)}
  {blocked entries : List (CellId × BlockReason)}

/-! ## §1. Orders. -/

theorem Exact.live_of_reachedFrom (h : g.Exact) (hid : (g.reachedFrom roots).has id = true) :
    g.contains id = true :=
  Graph.contains_of_mem_descendants ((h.mem_reachedFrom roots).1 hid)

/-- What is reached from the roots is their run-set. -/
theorem Exact.filter_reachedFrom (h : g.Exact) (roots : OrderedSet CellId) :
    g.ids.filter (g.reachedFrom roots).has = g.toGraph.descendants roots := by
  refine (h.ranked_ids.sublist List.filter_sublist).eq_of_mem_iff
    (h.ranked_ids.sublist List.filter_sublist) fun a => ?_
  rw [List.mem_filter, h.mem_reachedFrom, Graph.mem_ids]
  exact and_iff_right_of_imp Graph.contains_of_mem_descendants

theorem filter_diff (ids cells : List CellId) : ids.filter (s.diff (.ofList cells)).has =
    (ids.filter s.has).filter fun id => !cells.contains id := by
  rw [List.filter_filter]
  refine List.filter_congr fun a _ => ?_
  rw [Bool.eq_iff_iff, OrderedSet.has_diff, Bool.and_eq_true, Bool.not_eq_true',
    ← Bool.not_eq_true, ← Bool.not_eq_true, OrderedSet.has_ofList, List.contains_iff_mem]
  exact and_comm

theorem Exact.size_reachedFrom (h : g.Exact) (roots : OrderedSet CellId) :
    (g.reachedFrom roots).size = (g.toGraph.descendants roots).length := by
  rw [← h.filter_reachedFrom, ← (h.toList_perm fun _ => h.live_of_reachedFrom).length_eq]
  exact (List.length_map _).symm

/-- The order of a run, or the cycle that is reported without one, is that of the graph without
indices. -/
theorem Exact.topologicalOrder_eq (h : g.Exact) (roots : OrderedSet CellId) :
    g.topologicalOrder roots = g.toGraph.topologicalOrder roots := by
  have horder : g.order (g.reachedFrom roots) = g.orderOf (g.toGraph.descendants roots) := by
    rw [h.order_eq fun _ => h.live_of_reachedFrom, h.filter_reachedFrom]
  have hcycle : (g.minimalCycle ((g.reachedFrom roots).diff
      (.ofList (g.orderOf (g.toGraph.descendants roots))))).getD [] =
      g.shortestCycle ((g.toGraph.descendants roots).filter fun id =>
        !(g.orderOf (g.toGraph.descendants roots)).contains id) := by
    rw [h.minimalCycle_eq, filter_diff, h.filter_reachedFrom]
    intro id hid
    exact h.live_of_reachedFrom (OrderedSet.has_diff.1 hid).1
  unfold topologicalOrder Graph.topologicalOrder
  dsimp only
  rw [horder, h.size_reachedFrom, hcycle]

/-! ## §2. Blocking. -/

theorem block_new {e : CellId × BlockReason} (h : e.1 ∉ blocked.map (·.1)) :
    block blocked e = blocked ++ [e] := by
  refine if_neg fun hany => h ?_
  obtain ⟨e', he', heq⟩ := List.any_eq_true.1 hany
  exact List.mem_map.2 ⟨e', he', beq_iff_eq.1 heq⟩

theorem block_blocked {e : CellId × BlockReason} (h : e.1 ∈ blocked.map (·.1)) :
    block blocked e = blocked := by
  obtain ⟨e', he', heq⟩ := List.mem_map.1 h
  exact if_pos (List.any_eq_true.2 ⟨e', he', (beq_iff_eq (a := e'.1)).2 heq⟩)

/-- Entries of different cells that are not blocked are all kept. -/
theorem foldl_block_of_nodup (hnodup : (entries.map (·.1)).Nodup)
    (hnew : ∀ e ∈ entries, e.1 ∉ blocked.map (·.1)) :
    entries.foldl block blocked = blocked ++ entries := by
  induction entries generalizing blocked with
  | nil => exact (List.append_nil _).symm
  | cons first rest ih =>
    obtain ⟨hfirst, hrest⟩ := List.nodup_cons.1 hnodup
    rw [List.foldl_cons, block_new (hnew first List.mem_cons_self), ih hrest, List.append_assoc,
      List.singleton_append]
    intro e he hin
    rw [List.map_append, List.mem_append] at hin
    rcases hin with hin | hin
    · exact hnew e (List.mem_cons_of_mem _ he) hin
    · have hlater : e.1 ∈ rest.map (·.1) := List.mem_map_of_mem he
      rw [List.mem_singleton.1 hin] at hlater
      exact hfirst hlater

/-- No entry of a blocked cell is kept. -/
theorem foldl_block_of_blocked (hblocked : ∀ e ∈ entries, e.1 ∈ blocked.map (·.1)) :
    entries.foldl block blocked = blocked := by
  induction entries with
  | nil => rfl
  | cons first rest ih =>
    rw [List.foldl_cons, block_blocked (hblocked first List.mem_cons_self)]
    exact ih fun e he => hblocked e (List.mem_cons_of_mem _ he)

/-- When the entries go cell by cell, the first entry of each cell is kept. -/
theorem foldl_block_causes (causes : CellId → List CellId) (hnodup : ids.Nodup)
    (hnew : ∀ id ∈ ids, causes id ≠ [] → id ∉ blocked.map (·.1)) :
    ((ids.flatMap fun id => (causes id).map fun cause => (id, cause)).map fun e =>
        (e.1, BlockReason.downstreamOf e.2)).foldl block blocked =
      blocked ++ ids.filterMap fun id =>
        (causes id).head?.map fun cause => (id, BlockReason.downstreamOf cause) := by
  induction ids generalizing blocked with
  | nil => exact (List.append_nil _).symm
  | cons first rest ih =>
    obtain ⟨hfirst, hrest⟩ := List.nodup_cons.1 hnodup
    rw [List.flatMap_cons, List.map_append, List.foldl_append, List.map_map]
    cases hcauses : causes first with
    | nil =>
      rw [List.filterMap_cons_none (by rw [hcauses]; rfl)]
      exact ih hrest fun id hid => hnew id (List.mem_cons_of_mem _ hid)
    | cons cause others =>
      have hkept : ((cause :: others).map ((fun e => (e.1, BlockReason.downstreamOf e.2)) ∘
          fun cause => (first, cause))).foldl block blocked =
          blocked ++ [(first, .downstreamOf cause)] := by
        have hfree := hnew first List.mem_cons_self (by simp [hcauses])
        rw [List.map_cons, List.foldl_cons, block_new hfree]
        refine foldl_block_of_blocked fun e he => ?_
        obtain ⟨other, -, rfl⟩ := List.mem_map.1 he
        simp
      rw [hkept, ih hrest, List.filterMap_cons_some (by rw [hcauses]; rfl), List.append_assoc,
        List.singleton_append]
      intro id hid hne hin
      rw [List.map_append, List.mem_append] at hin
      rcases hin with hin | hin
      · exact hnew id (List.mem_cons_of_mem _ hid) hne hin
      · have heq : id = first := List.mem_singleton.1 hin
        exact hfirst (heq ▸ hid)

/-! ## §3. The cells below a cycle. -/

/-- The blocked cells that lie above a cell which lies on no cycle itself. -/
def causes (g : Graph) (roots : OrderedSet CellId) (id : CellId) : List CellId :=
  if (g.cyclic roots).contains id then []
  else (g.cyclic roots).filter fun origin => (Graph.listed g.below origin).contains id

theorem downstream?_eq (g : Graph) (roots : OrderedSet CellId) (id : CellId) :
    g.downstream? roots id =
      (causes g roots id).head?.map fun cause => (id, BlockReason.downstreamOf cause) := by
  unfold Graph.downstream? causes
  split
  · rfl
  · rw [List.head?_filter]

theorem mem_causes (hg : g.toGraph.WellFormed) : a ∈ causes g.toGraph roots id ↔
    (a ∈ g.descendants roots ∧ g.OnCycle a) ∧ id ∉ g.cyclic roots ∧ TransGen g.Edge a id := by
  unfold causes
  split
  · rename_i hcyclic
    simp [List.contains_iff_mem.1 hcyclic]
  · rename_i hfree
    rw [List.contains_iff_mem] at hfree
    rw [List.mem_filter, Graph.mem_cyclic hg, List.contains_iff_mem, Graph.mem_listed_below hg]
    simp [hfree]

/-- One pair of a cell and a blocked cell above it comes before another one. -/
def Before (g : Graph) (x y : CellId × CellId) : Prop :=
  g.place x.1 < g.place y.1 ∨ g.place x.1 = g.place y.1 ∧ g.place x.2 < g.place y.2

/-- A sorted list of pairs is known by its pairs. -/
theorem eq_of_before {l l' : List (CellId × CellId)} (h : l.Pairwise (Before g.toGraph))
    (h' : l'.Pairwise (Before g.toGraph)) (hmem : ∀ x, x ∈ l ↔ x ∈ l') : l = l' := by
  have hirrefl : Std.Irrefl (Before g.toGraph) := ⟨fun x hself => by
    unfold Before at hself
    omega⟩
  have hanti : Std.Antisymm (Before g.toGraph) := ⟨fun x y hxy hyx => by
    unfold Before at hxy hyx
    omega⟩
  exact List.Pairwise.eq_of_mem_iff h h' hmem

theorem Exact.mem_downstream (h : g.Exact) :
    (id, a) ∈ g.downstream (g.reachedFrom roots) (g.toGraph.blockedOnCycle roots) ↔
      id ∈ g.toGraph.descendants roots ∧ a ∈ causes g.toGraph roots id := by
  have hkeys : ∀ c, c ∈ (g.toGraph.blockedOnCycle roots).map (·.1) ↔
      c ∈ g.toGraph.cyclic roots := fun c => by
    rw [Graph.blockedOnCycle_ids, Graph.mem_groups h.wellFormed, Graph.mem_cyclic h.wellFormed]
  have hany : ((g.toGraph.blockedOnCycle roots).any fun e => e.1 == id) = true ↔
      id ∈ g.toGraph.cyclic roots := by
    rw [← hkeys, List.any_eq_true, List.mem_map]
    simp only [beq_iff_eq]
  rw [mem_causes h.wellFormed, ← Graph.mem_cyclic h.wellFormed]
  unfold downstream
  simp only [List.mem_mergeSort, List.mem_flatMap, List.mem_map, List.mem_filter,
    OrderedSet.mem_toList, Prod.mk.injEq, Bool.and_eq_true, h.mem_reachedFrom roots]
  simp only [← List.mem_map, hkeys]
  constructor
  · intro hex
    obtain ⟨origin, horigin, id', ⟨hreached, hid, hfree⟩, rfl, rfl⟩ := hex
    have hout : id' ∉ g.toGraph.cyclic roots := fun hin => by simp [hany.2 hin] at hfree
    have hlive := ((Graph.mem_cyclic h.wellFormed).1 horigin).2.contains
    refine ⟨hid, horigin, hout, ?_⟩
    refine (reflTransGen_iff_eq_or_transGen.1
      ((h.has_reachedFrom_one hlive).1 hreached)).resolve_left fun heq => ?_
    exact hout (heq ▸ horigin)
  · intro hex
    obtain ⟨hid, horigin, hout, hpath⟩ := hex
    have hlive := ((Graph.mem_cyclic h.wellFormed).1 horigin).2.contains
    refine ⟨a, horigin, id, ⟨(h.has_reachedFrom_one hlive).2 hpath.to_reflTransGen, hid, ?_⟩,
      rfl, rfl⟩
    rw [Bool.not_eq_true', ← Bool.not_eq_true, hany]
    exact hout

theorem Exact.downstream_pairwise (h : g.Exact) (roots : OrderedSet CellId) :
    (g.downstream (g.reachedFrom roots) (g.toGraph.blockedOnCycle roots)).Pairwise
      (Before g.toGraph) := by
  have hsorted : (g.downstream (g.reachedFrom roots) (g.toGraph.blockedOnCycle roots)).Pairwise
      fun x y => (g.place x.1 < g.place y.1 ||
        g.place x.1 == g.place y.1 && g.place x.2 ≤ g.place y.2) = true := by
    refine List.pairwise_mergeSort (fun x y z hxy hyz => ?_) (fun x y => ?_) _
    · simp only [Bool.or_eq_true, Bool.and_eq_true, decide_eq_true_eq, beq_iff_eq] at hxy hyz ⊢
      omega
    · simp only [Bool.or_eq_true, Bool.and_eq_true, decide_eq_true_eq, beq_iff_eq]
      omega
  have hnodup : (g.downstream (g.reachedFrom roots) (g.toGraph.blockedOnCycle roots)).Nodup := by
    refine (List.mergeSort_perm _ _).nodup_iff.2 (List.nodup_flatMap.2 ⟨fun origin _ => ?_, ?_⟩)
    · exact ((OrderedSet.toList_nodup _).filter _).map fun x y heq => (Prod.mk.inj heq).1
    · rw [Graph.blockedOnCycle_ids]
      refine (Graph.cyclicComponents_nodup h.wellFormed).imp fun {o o'} hne x hx hx' => ?_
      obtain ⟨_, -, rfl⟩ := List.mem_map.1 hx
      obtain ⟨_, -, heq⟩ := List.mem_map.1 hx'
      exact hne (Prod.mk.inj heq).2.symm
  refine (hsorted.and hnodup).imp_of_mem fun {x y} hx hy hxy => ?_
  obtain ⟨hle, hne⟩ := hxy
  simp only [Bool.or_eq_true, Bool.and_eq_true, decide_eq_true_eq, beq_iff_eq] at hle
  rcases hle with hlt | ⟨heq, hle⟩
  · exact .inl hlt
  · -- pairs with the same places would be the same
    refine .inr ⟨heq, lt_of_le_of_ne hle fun heq' => hne (Prod.ext ?_ ?_)⟩
    · exact h.place_injective (Graph.contains_of_mem_descendants (h.mem_downstream.1 hx).1)
        (Graph.contains_of_mem_descendants (h.mem_downstream.1 hy).1) heq
    · have hcause := ((mem_causes h.wellFormed).1 (h.mem_downstream.1 hx).2).1.2
      have hcause' := ((mem_causes h.wellFormed).1 (h.mem_downstream.1 hy).2).1.2
      exact h.place_injective hcause.contains hcause'.contains heq'

theorem Exact.ranked_causes (h : g.Exact) : Ranked g.place (causes g.toGraph roots id) := by
  unfold causes
  split
  · exact List.Pairwise.nil
  · exact h.ranked_ids.sublist (List.filter_sublist.trans List.filter_sublist)

/-- The sorted pairs go cell by cell. -/
theorem Exact.downstream_eq (h : g.Exact) (roots : OrderedSet CellId) :
    g.downstream (g.reachedFrom roots) (g.toGraph.blockedOnCycle roots) =
      (g.toGraph.descendants roots).flatMap fun id =>
        (causes g.toGraph roots id).map fun cause => (id, cause) := by
  refine eq_of_before (h.downstream_pairwise roots) ?_ fun x => ?_
  · refine List.pairwise_flatMap.2 ⟨fun id _ => ?_, ?_⟩
    · exact List.pairwise_map.2 (h.ranked_causes.imp fun hlt => .inr ⟨rfl, hlt⟩)
    · refine (h.ranked_ids.sublist List.filter_sublist).imp fun {a b} hlt x hx y hy => ?_
      obtain ⟨_, -, rfl⟩ := List.mem_map.1 hx
      obtain ⟨_, -, rfl⟩ := List.mem_map.1 hy
      exact .inl hlt
  · obtain ⟨id, cause⟩ := x
    rw [h.mem_downstream]
    simp

/-! ## §4. Plans. -/

section Plans

variable (h : g.Exact) (hs : StronglyConnected g.nodes g.edges components)

include h hs

/-- The cycles of a plan are those of its groups. -/
theorem map_minimalCycle (roots : OrderedSet CellId) :
    ((g.cyclicGroups components (g.reachedFrom roots)).map fun group =>
      (g.minimalCycle group).getD []) = (g.toGraph.groups roots).map g.shortestCycle := by
  rw [← map_cyclicGroups h hs, List.map_map]
  exact List.map_congr_left fun s hsin =>
    h.minimalCycle_eq fun _ ha => hs.live_of_cyclicGroups h hsin ha

/-- The cells on cycles are blocked group by group. -/
theorem foldl_block_groups (roots : OrderedSet CellId) :
    (((g.cyclicGroups components (g.reachedFrom roots)).zip
        ((g.toGraph.groups roots).map g.shortestCycle)).flatMap fun (group, cycle) =>
        (g.byPlace group.toList).map fun id => (id, BlockReason.inCycle cycle)).foldl block [] =
      g.toGraph.blockedOnCycle roots := by
  have hentries : (((g.cyclicGroups components (g.reachedFrom roots)).zip
      ((g.toGraph.groups roots).map g.shortestCycle)).flatMap fun (group, cycle) =>
      (g.byPlace group.toList).map fun id => (id, BlockReason.inCycle cycle)) =
      g.toGraph.blockedOnCycle roots := by
    unfold Graph.blockedOnCycle
    conv_rhs => enter [2, 1]; rw [← map_cyclicGroups h hs]
    rw [List.zip_map_left, List.flatMap_map]
    refine List.flatMap_congr fun p hp => ?_
    obtain ⟨group, cycle⟩ := p
    show (g.byPlace group.toList).map _ =
      (g.ids.filter group.has).map fun id => (id, BlockReason.inCycle cycle)
    rw [h.byPlace_eq fun _ ha => hs.live_of_cyclicGroups h (List.of_mem_zip hp).1 ha]
  rw [hentries, foldl_block_of_nodup]
  · rfl
  · rw [Graph.blockedOnCycle_ids]
    exact Graph.cyclicComponents_nodup h.wellFormed
  · exact fun _ _ => List.not_mem_nil

theorem planWith_blocked (roots : OrderedSet CellId) :
    (g.planWith components roots).blocked = (g.toGraph.plan roots).blocked := by
  have hnew : ∀ id ∈ g.toGraph.descendants roots, causes g.toGraph roots id ≠ [] →
      id ∉ (g.toGraph.blockedOnCycle roots).map (·.1) := by
    intro id _ hcauses hin
    obtain ⟨cause, hcause⟩ := List.exists_mem_of_ne_nil _ hcauses
    have hout := ((mem_causes h.wellFormed).1 hcause).2.1
    rw [Graph.blockedOnCycle_ids, Graph.mem_groups h.wellFormed] at hin
    exact hout ((Graph.mem_cyclic h.wellFormed).2 hin)
  unfold planWith
  dsimp only
  rw [map_minimalCycle h hs, foldl_block_groups h hs, h.downstream_eq, Graph.plan_blocked]
  refine (foldl_block_causes _ (Graph.descendants_nodup h.wellFormed) hnew).trans ?_
  congr 1
  exact List.filterMap_congr fun id _ => (downstream?_eq g.toGraph roots id).symm

theorem planWith_order (roots : OrderedSet CellId) :
    (g.planWith components roots).order = (g.toGraph.plan roots).order := by
  show g.order ((g.reachedFrom roots).diff
    (.ofList ((g.planWith components roots).blocked.map (·.1)))) = _
  rw [planWith_blocked h hs, h.order_eq, filter_diff, h.filter_reachedFrom, Graph.plan_order]
  intro id hid
  exact h.live_of_reachedFrom (OrderedSet.has_diff.1 hid).1

/-- The plan of a run is that of the graph without indices, whichever way the components of the
multigraph were found. -/
theorem planWith_eq (roots : OrderedSet CellId) :
    g.planWith components roots = g.toGraph.plan roots := by
  show Plan.mk (g.planWith components roots).order (g.planWith components roots).cycles
    (g.planWith components roots).blocked = _
  rw [planWith_order h hs, planWith_blocked h hs]
  exact congrArg (Plan.mk _ · _) (map_minimalCycle h hs roots)

end Plans

end IndexedGraph

end Notebook
