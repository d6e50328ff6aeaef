/-
  Notebook.Proofs.Graph.Accurate — what a plan says is exactly so.

  A plan splits the run-set into ordered and blocked cells.  It blocks a cell as one on a cycle just
  when the cell lies on a cycle of the run-set, and names the cycle that is reported for the cells
  which lie on cycles with it; for every such group of cells there is one cycle, a minimal one.  It
  blocks a cell as one below a cycle just when the cell lies on none but a cell on a cycle leads to
  it, and names the earliest such cell.  The other cells are ordered, parents first.

  Without a cycle nothing is blocked, and the order of the plan is the order of the run.

  Main results:
    * `Plan.Accurate` / `accurate_plan` — what a plan says is exactly so,
    * `topologicalOrder_eq_plan_order` / `topologicalOrder_fails_iff` — a run has an order unless
      its plan has cycles, and then both orders are the same.
-/
import Notebook.Proofs.Graph.Circuits
import Notebook.Proofs.Graph.Groups

namespace Notebook

open Relation

/-! ## §1. What an accurate plan says. -/

/-- The earliest cell on a cycle of the run-set that leads to a cell. -/
structure Graph.FirstAbove (g : Graph) (roots : OrderedSet CellId) (id origin : CellId) :
    Prop where
  member : origin ∈ g.runSet roots
  on_cycle : g.OnCycle origin
  above : TransGen g.Edge origin id
  earliest : ∀ other ∈ g.runSet roots, g.OnCycle other → TransGen g.Edge other id →
    g.place origin ≤ g.place other

/-- A minimal one of the cycles through the cells that lie on a cycle with `id`. -/
def Graph.OwnCycle (g : Graph) (id : CellId) (cycle : List CellId) : Prop :=
  g.MinimalCycle {other | g.Together id other} cycle

/-- What a plan of a run says is exactly so. -/
structure Plan.Accurate (p : Plan) (g : Graph) (roots : OrderedSet CellId) : Prop where
  order_nodup : p.order.Nodup
  blocked_nodup : (p.blocked.map (·.1)).Nodup
  disjoint : ∀ id ∈ p.order, id ∉ p.blocked.map (·.1)
  covers : ∀ id, id ∈ p.order ∨ id ∈ p.blocked.map (·.1) ↔ id ∈ g.runSet roots
  on_cycle : ∀ id, (∃ cycle, (id, .inCycle cycle) ∈ p.blocked) ↔
    id ∈ g.runSet roots ∧ g.OnCycle id
  /-- The cycle that is named is the one of the cell's own group. -/
  own_cycle : ∀ id cycle, (id, .inCycle cycle) ∈ p.blocked →
    cycle ∈ p.cycles ∧ g.OwnCycle id cycle
  below_cycle : ∀ id origin, (id, .downstreamOf origin) ∈ p.blocked ↔
    ¬ g.OnCycle id ∧ g.FirstAbove roots id origin
  /-- Every cell on a cycle has a cycle of its group in the plan. -/
  has_cycle : ∀ id ∈ g.runSet roots, g.OnCycle id → ∃ cycle ∈ p.cycles, g.OwnCycle id cycle
  /-- Every cycle in the plan is one of a group that the run meets. -/
  cycle_of : ∀ cycle ∈ p.cycles, ∃ id ∈ g.runSet roots, g.OnCycle id ∧ g.OwnCycle id cycle
  /-- No group has two cycles in the plan. -/
  cycles_apart : p.cycles.Pairwise fun cycle other =>
    ∀ a ∈ cycle, ∀ b ∈ other, ¬ g.Together a b
  parents_first : ∀ a b, g.Edge a b → a ∈ g.runSet roots → b ∈ p.order →
    a ∈ p.order ∧ p.order.idxOf a < p.order.idxOf b

namespace Graph

variable {g : Graph} {roots : OrderedSet CellId} {group cycle : List CellId} {a b id : CellId}
  {reason : BlockReason}

/-! ## §2. Cycles. -/

/-- A group holds all cells that lie on a cycle with a cell of it. -/
theorem mem_group_iff (hg : g.WellFormed) (hgroup : group ∈ g.groups roots) (ha : a ∈ group) :
    b ∈ group ↔ g.Together a b := by
  obtain ⟨m, -, rfl⟩ := exists_component hgroup
  have hma := (mem_component hg).1 ha
  rw [mem_component hg]
  exact ⟨fun hmb => hma.symm.trans hmb, fun hab => hma.trans hab⟩

/-- The cycle of a group is a minimal one. -/
theorem ownCycle_shortestCycle (hg : g.WellFormed) (hranked : Ranked g.place g.ids)
    (hgroup : group ∈ g.groups roots) (ha : a ∈ group) :
    g.OwnCycle a (g.shortestCycle group) := by
  have hmem : {b | b ∈ group} = {b | g.Together a b} :=
    Set.ext fun b => mem_group_iff hg hgroup ha
  have hon : g.OnCycle a := ((mem_group_iff hg hgroup ha).1 ha).1
  obtain ⟨rest, hcircuit⟩ := exists_circuit hon
  have hin : ∀ b ∈ a :: rest, b ∈ group := by
    intro b hb
    rw [mem_group_iff hg hgroup ha]
    exact ⟨hcircuit.reaches List.mem_cons_self hb, hcircuit.reaches hb List.mem_cons_self⟩
  have hrankedGroup : Ranked g.place group := by
    obtain ⟨m, -, rfl⟩ := exists_component hgroup
    exact hranked.sublist List.filter_sublist
  have hminimal := minimalCycle_shortestCycle hg hrankedGroup hcircuit hin
  rwa [hmem] at hminimal

theorem exists_group_of_onCycle (hg : g.WellFormed) (hid : id ∈ g.runSet roots)
    (hon : g.OnCycle id) : ∃ group ∈ g.groups roots, id ∈ group := by
  have hin := (mem_groups hg).2 ⟨(mem_runSet_iff hg).1 hid, hon⟩
  exact List.mem_flatten.1 hin

theorem onCycle_of_group (hg : g.WellFormed) (hgroup : group ∈ g.groups roots) (ha : a ∈ group) :
    a ∈ g.runSet roots ∧ g.OnCycle a := by
  have hin := (mem_groups hg).1 (List.mem_flatten.2 ⟨group, hgroup, ha⟩)
  exact ⟨(mem_runSet_iff hg).2 hin.1, hin.2⟩

theorem plan_cycles (g : Graph) (roots : OrderedSet CellId) :
    (g.plan roots).cycles = (g.groups roots).map g.shortestCycle := rfl

/-- Groups are not empty. -/
theorem group_ne_nil (hg : g.WellFormed) (hgroup : group ∈ g.groups roots) :
    ∃ a, a ∈ group := by
  obtain ⟨m, -, hon, rfl⟩ := (mem_cyclicComponents_iff hg).1 hgroup
  exact ⟨m, self_mem_component hg hon⟩

/-- The cycles of different groups have no cells on a cycle together. -/
theorem plan_cycles_apart (hg : g.WellFormed) (hranked : Ranked g.place g.ids) :
    (g.plan roots).cycles.Pairwise fun cycle other =>
      ∀ a ∈ cycle, ∀ b ∈ other, ¬ g.Together a b := by
  have hdisjoint := (List.nodup_flatten.1
    (cyclicComponents_nodup hg : (g.groups roots).flatten.Nodup)).2
  have hinside : ∀ group ∈ g.groups roots, ∀ a ∈ g.shortestCycle group, a ∈ group := by
    intro group hgroup a ha
    obtain ⟨m, hm⟩ := group_ne_nil hg hgroup
    exact (mem_group_iff hg hgroup hm).2
      ((ownCycle_shortestCycle hg hranked hgroup hm).inside a ha)
  rw [plan_cycles]
  refine List.pairwise_map.2 (hdisjoint.imp_of_mem fun {group other} hgroup hother hapart => ?_)
  intro a ha b hb htogether
  have ha := hinside group hgroup a ha
  exact hapart ((mem_group_iff hg hgroup ha).2 htogether) (hinside other hother b hb)

/-! ## §3. Blocked cells. -/

/-- A cell on a cycle is blocked with the cycle of its group. -/
theorem mem_blockedOnCycle_iff : (id, reason) ∈ g.blockedOnCycle roots ↔
    ∃ group ∈ g.groups roots, id ∈ group ∧ reason = .inCycle (g.shortestCycle group) := by
  have hzip : (g.groups roots).zip ((g.groups roots).map g.shortestCycle) =
      (g.groups roots).map fun group => (group, g.shortestCycle group) := by
    rw [List.zip_eq_zipWith, List.zipWith_map_right, List.zipWith_self]
  unfold blockedOnCycle
  rw [hzip, List.flatMap_map, List.mem_flatMap]
  refine exists_congr fun group => and_congr_right fun _ => ?_
  rw [List.mem_map]
  constructor
  · intro hex
    obtain ⟨id', hid', heq⟩ := hex
    obtain ⟨rfl, rfl⟩ := Prod.mk.inj heq
    exact ⟨hid', rfl⟩
  · intro hex
    obtain ⟨hid, rfl⟩ := hex
    exact ⟨id, hid, rfl⟩

theorem inCycle_mem_blocked_iff : (id, .inCycle cycle) ∈ (g.plan roots).blocked ↔
    ∃ group ∈ g.groups roots, id ∈ group ∧ cycle = g.shortestCycle group := by
  rw [plan_blocked, List.mem_append, mem_blockedOnCycle_iff, or_iff_left]
  · simp only [BlockReason.inCycle.injEq]
  · intro hin
    obtain ⟨a, -, hsome⟩ := List.mem_filterMap.1 hin
    unfold downstream? at hsome
    split at hsome
    · cases hsome
    · obtain ⟨o, -, heq⟩ := Option.map_eq_some_iff.1 hsome
      cases heq

/-- A cell below a cycle is blocked with the earliest cell on a cycle above it. -/
theorem downstream?_eq_some_iff (hg : g.WellFormed) (hranked : Ranked g.place g.ids) :
    g.downstream? roots id = some (a, .downstreamOf b) ↔
      id = a ∧ id ∉ g.cyclic roots ∧ g.FirstAbove roots id b := by
  have hcyclic : Ranked g.place (g.cyclic roots) := hranked.sublist List.filter_sublist
  unfold downstream?
  split
  · rename_i hin
    simp [List.contains_iff_mem.1 hin]
  · rename_i hout
    rw [List.contains_iff_mem] at hout
    rw [and_iff_right hout, Option.map_eq_some_iff]
    simp only [hcyclic.find?_eq_some_iff, Prod.mk.injEq, BlockReason.downstreamOf.injEq,
      List.contains_iff_mem, mem_listed_below hg, mem_cyclic hg, ← mem_runSet_iff hg]
    constructor
    · intro hex
      obtain ⟨o, ⟨⟨hmember, hon⟩, habove, hearliest⟩, rfl, rfl⟩ := hex
      exact ⟨rfl, hmember, hon, habove, fun other hin hcycle habove =>
        hearliest other ⟨hin, hcycle⟩ habove⟩
    · intro hex
      obtain ⟨rfl, hfirst⟩ := hex
      exact ⟨b, ⟨⟨hfirst.member, hfirst.on_cycle⟩, hfirst.above, fun other hother habove =>
        hfirst.earliest other hother.1 hother.2 habove⟩, rfl, rfl⟩

theorem downstreamOf_mem_blocked_iff (hg : g.WellFormed) (hranked : Ranked g.place g.ids) :
    (id, .downstreamOf a) ∈ (g.plan roots).blocked ↔
      ¬ g.OnCycle id ∧ g.FirstAbove roots id a := by
  rw [plan_blocked, List.mem_append, or_iff_right, List.mem_filterMap]
  · simp only [downstream?_eq_some_iff hg hranked, mem_cyclic hg]
    constructor
    · intro hex
      obtain ⟨b, hb, rfl, hout, hfirst⟩ := hex
      exact ⟨fun hon => hout ⟨hb, hon⟩, hfirst⟩
    · intro hex
      obtain ⟨hout, hfirst⟩ := hex
      have hid := descendants_closed hg ((mem_runSet_iff hg).1 hfirst.member)
        hfirst.above.to_reflTransGen
      exact ⟨id, hid, rfl, fun hin => hout hin.2, hfirst⟩
  · intro hin
    obtain ⟨group, -, -, heq⟩ := mem_blockedOnCycle_iff.1 hin
    cases heq

/-- What a plan says is exactly so. -/
theorem accurate_plan (hg : g.WellFormed) (hranked : Ranked g.place g.ids)
    (roots : OrderedSet CellId) : (g.plan roots).Accurate g roots where
  order_nodup := plan_order_nodup hg
  blocked_nodup := plan_blocked_nodup hg
  disjoint := by
    intro id hid hin
    exact ((mem_plan_order hg).1 hid).2 ((mem_plan_blocked hg).1 hin)
  covers := by
    intro id
    rw [mem_plan_order hg, mem_plan_blocked hg, mem_runSet_iff hg]
    constructor
    · intro hor
      exact hor.elim (fun hfree => hfree.1) fun hbarred => hbarred.mem_descendants hg
    · intro hid
      by_cases hbarred : g.Barred roots id
      · exact .inr hbarred
      · exact .inl ⟨hid, hbarred⟩
  on_cycle := by
    intro id
    simp only [inCycle_mem_blocked_iff]
    constructor
    · intro hex
      obtain ⟨cycle, group, hgroup, hid, -⟩ := hex
      exact onCycle_of_group hg hgroup hid
    · intro hex
      obtain ⟨group, hgroup, hid⟩ := exists_group_of_onCycle hg hex.1 hex.2
      exact ⟨_, group, hgroup, hid, rfl⟩
  own_cycle := by
    intro id cycle hin
    obtain ⟨group, hgroup, hid, rfl⟩ := inCycle_mem_blocked_iff.1 hin
    exact ⟨List.mem_map_of_mem hgroup, ownCycle_shortestCycle hg hranked hgroup hid⟩
  below_cycle := fun _ _ => downstreamOf_mem_blocked_iff hg hranked
  has_cycle := by
    intro id hid hon
    obtain ⟨group, hgroup, hin⟩ := exists_group_of_onCycle hg hid hon
    exact ⟨_, List.mem_map_of_mem hgroup, ownCycle_shortestCycle hg hranked hgroup hin⟩
  cycle_of := by
    intro cycle hcycle
    obtain ⟨group, hgroup, rfl⟩ := List.mem_map.1 hcycle
    obtain ⟨a, ha⟩ := group_ne_nil hg hgroup
    obtain ⟨hmember, hon⟩ := onCycle_of_group hg hgroup ha
    exact ⟨a, hmember, hon, ownCycle_shortestCycle hg hranked hgroup ha⟩
  cycles_apart := plan_cycles_apart hg hranked
  parents_first := by
    intro a b hedge ha hb
    have hfree := (mem_plan_order hg).1 hb
    have hin : a ∈ (g.plan roots).order := by
      refine (mem_plan_order hg).2 ⟨(mem_runSet_iff hg).1 ha, fun hbarred => hfree.2 ?_⟩
      -- what bars the parent bars the cell
      obtain ⟨o, ho, hon, hpath⟩ := hbarred
      exact ⟨o, ho, hon, hpath.tail hedge⟩
    exact ⟨hin, idxOf_lt_of_pairwise (plan_order_pairwise hg) hedge hin hb⟩

/-! ## §4. Both ways to order a run. -/

/-- Without a cycle the order of a plan is the order of the run. -/
theorem topologicalOrder_eq_plan_order (hg : g.WellFormed)
    (hfree : ∀ id ∈ g.runSet roots, ¬ g.OnCycle id) :
    g.topologicalOrder roots = .ok (g.plan roots).order := by
  have hacyclic : ∀ id ∈ g.descendants roots, ¬ g.OnCycle id := fun id hid =>
    hfree id ((mem_runSet_iff hg).2 hid)
  refine (topologicalOrder_eq_ok_iff hg).2 ⟨hacyclic, ?_⟩
  rw [plan_order, List.filter_eq_self.2]
  intro id _
  rw [Bool.not_eq_true', ← Bool.not_eq_true, List.contains_iff_mem, mem_plan_blocked hg]
  intro hbarred
  obtain ⟨o, ho, hon, -⟩ := hbarred
  exact hacyclic o ho hon

/-- A run has no order just when its plan has cycles. -/
theorem topologicalOrder_fails_iff (hg : g.WellFormed) :
    (∃ cycle, g.topologicalOrder roots = .error cycle) ↔ (g.plan roots).cycles ≠ [] := by
  rw [plan_cycles, ne_eq, List.map_eq_nil_iff]
  simp only [topologicalOrder_eq_error_iff hg, exists_and_left, exists_eq, and_true]
  constructor
  · intro hex hnil
    obtain ⟨id, hid, hon⟩ := hex
    have hin := (mem_groups hg).2 ⟨hid, hon⟩
    rw [hnil] at hin
    cases hin
  · intro hne
    obtain ⟨group, hgroup⟩ := List.exists_mem_of_ne_nil _ hne
    obtain ⟨a, ha⟩ := group_ne_nil hg hgroup
    exact ⟨a, (mem_groups hg).1 (List.mem_flatten.2 ⟨group, hgroup, ha⟩)⟩

end Graph

end Notebook
