/-
  Notebook.Proofs.Graph.Runs — what a run executes, after any changes of the cells.

  However cells were registered and removed, a run of some cells is worked out on the edges as the
  graph of the live cells has it.  So what holds of orders, reported cycles and plans of a graph
  holds of those that are worked out: a run has an order unless its run-set has a cycle, and the
  order is the least one by registration; without an order a minimal cycle is reported; and a plan
  says exactly what is so, whichever way the components of the multigraph were found.

  Main results:
    * `changeAll_topologicalOrder_least` — when there is an order, and which one is taken,
    * `changeAll_topologicalOrder_minimal` — which cycle is reported otherwise,
    * `changeAll_plan_accurate` — what a plan says, and that both ways to order a run agree.
-/
import Mathlib
import Notebook.Proofs.Graph.Accurate
import Notebook.Proofs.Graph.Schedule

namespace Notebook

open Relation

namespace IndexedGraph

/-! ## §1. Orders. -/

/-- Two cells that read each other, a cell that reads from one of them and from a fourth one; the
fourth one is the first of all. -/
def entangled : List Change :=
  [.register ⟨⟨4⟩, "z = 0", .ofList ["z"], .empty⟩,
    .register ⟨⟨1⟩, "x = y", .ofList ["x"], .ofList ["y"]⟩,
    .register ⟨⟨3⟩, "w = x + z", .ofList ["w"], .ofList ["x", "z"]⟩,
    .register ⟨⟨2⟩, "y = x", .ofList ["y"], .ofList ["x"]⟩]

/-- After any changes, a run has an order just when there is no cycle among its live roots and what
depends on them.  The order lists these cells once each, parents first, and is the least such list
by the places of its cells. -/
theorem changeAll_topologicalOrder_least (marker : String) (changes : List Change)
    (roots : OrderedSet CellId) :
    let g : IndexedGraph := changeAll { privateMarker := marker } changes
    ((∃ order, g.topologicalOrder roots = .ok order) ↔
      ¬ ∃ cycle, Circuit g.Edge cycle ∧ ∀ id ∈ cycle, id ∈ g.runSet roots) ∧
    ∀ order, g.topologicalOrder roots = .ok order →
      g.DependencyOrder (g.runSet roots) order ∧
      ∀ other, g.DependencyOrder (g.runSet roots) other →
        other = order ∨ List.Lex (· < ·) (order.map g.place) (other.map g.place) := by
  intro g
  have hexact : g.Exact := ((Exact.empty marker).changeAll changes).1
  have hg := hexact.wellFormed
  have hrunSet : {id | id ∈ g.toGraph.descendants roots} = g.runSet roots :=
    Set.ext fun id => (Graph.mem_runSet_iff hg).symm
  rw [hexact.topologicalOrder_eq]
  simp only [Graph.topologicalOrder_eq_ok_iff hg]
  constructor
  · constructor
    · intro hex hcycle
      obtain ⟨_, hfree, -⟩ := hex
      obtain ⟨cycle, hcircuit, hin⟩ := hcycle
      have hfirst := List.head_mem hcircuit.ne_nil
      exact hfree _ ((Graph.mem_runSet_iff hg).1 (hin _ hfirst))
        (Graph.onCycle_of_circuit hcircuit hfirst)
    · intro hnone
      refine ⟨_, fun id hid hon => hnone ?_, rfl⟩
      obtain ⟨rest, hcircuit, hin⟩ :=
        Graph.exists_circuit_runSet hg ((Graph.mem_runSet_iff hg).2 hid) hon
      exact ⟨id :: rest, hcircuit, hin⟩
  · intro order horder
    obtain ⟨hfree, rfl⟩ := horder
    rw [← hrunSet]
    refine ⟨Graph.dependencyOrder_orderOf hg (Graph.descendants_nodup hg) hfree, ?_⟩
    intro other hother
    exact Graph.orderOf_least hg (hexact.ranked_ids.sublist List.filter_sublist) hother

/-- A run that does not begin on the cycle has an order. -/
theorem entangled_least :
    let g : IndexedGraph := changeAll { privateMarker := "_" } entangled
    g.topologicalOrder (.ofList [⟨4⟩]) = .ok [⟨4⟩, ⟨3⟩] ∧
      g.DependencyOrder (g.runSet (.ofList [⟨4⟩])) [⟨4⟩, ⟨3⟩] := by
  have horder : (changeAll { privateMarker := "_" } entangled).topologicalOrder
      (.ofList [⟨4⟩]) = .ok [⟨4⟩, ⟨3⟩] := by cbv
  have hleast := (changeAll_topologicalOrder_least "_" entangled (.ofList [⟨4⟩])).2 _ horder
  exact ⟨horder, hleast.1⟩

/-! ## §2. Reported cycles. -/

/-- After any changes, the cycle that is reported when a run has no order is a minimal one among its
live roots and what depends on them. -/
theorem changeAll_topologicalOrder_minimal (marker : String) (changes : List Change)
    (roots : OrderedSet CellId) (cycle : List CellId)
    (h : (changeAll { privateMarker := marker } changes).topologicalOrder roots = .error cycle) :
    let g : IndexedGraph := changeAll { privateMarker := marker } changes
    g.MinimalCycle (g.runSet roots) cycle := by
  intro g
  have hexact : g.Exact := ((Exact.empty marker).changeAll changes).1
  have herror : g.toGraph.topologicalOrder roots = .error cycle :=
    (hexact.topologicalOrder_eq roots).symm.trans h
  exact Graph.minimalCycle_of_topologicalOrder hexact.wellFormed hexact.ranked_ids herror

/-- The two cells are reported. -/
theorem entangled_minimal :
    let g : IndexedGraph := changeAll { privateMarker := "_" } entangled
    g.topologicalOrder (.ofList [⟨2⟩, ⟨4⟩]) = .error [⟨1⟩, ⟨2⟩] ∧
      g.MinimalCycle (g.runSet (.ofList [⟨2⟩, ⟨4⟩])) [⟨1⟩, ⟨2⟩] := by
  have herror : (changeAll { privateMarker := "_" } entangled).topologicalOrder
      (.ofList [⟨2⟩, ⟨4⟩]) = .error [⟨1⟩, ⟨2⟩] := by cbv
  exact ⟨herror, changeAll_topologicalOrder_minimal _ _ _ _ herror⟩

/-! ## §3. Plans. -/

/-- After any changes, and whichever way the components of the multigraph were found, a plan says
exactly what is so.  Without a cycle in the run-set its order is the order of the run; the run has
no order just when the plan has cycles. -/
theorem changeAll_plan_accurate (marker : String) (changes : List Change)
    (roots : OrderedSet CellId) (components : List (List CellId))
    (h : StronglyConnected (changeAll { privateMarker := marker } changes).nodes
      (changeAll { privateMarker := marker } changes).edges components) :
    let g : IndexedGraph := changeAll { privateMarker := marker } changes
    (g.planWith components roots).Accurate g.toGraph roots ∧
      ((∀ id ∈ g.runSet roots, ¬ g.OnCycle id) →
        g.topologicalOrder roots = .ok (g.planWith components roots).order) ∧
      ((∃ cycle, g.topologicalOrder roots = .error cycle) ↔
        (g.planWith components roots).cycles ≠ []) := by
  intro g
  have hexact : g.Exact := ((Exact.empty marker).changeAll changes).1
  rw [planWith_eq hexact h, hexact.topologicalOrder_eq]
  exact ⟨Graph.accurate_plan hexact.wellFormed hexact.ranked_ids roots,
    Graph.topologicalOrder_eq_plan_order hexact.wellFormed,
    Graph.topologicalOrder_fails_iff hexact.wellFormed⟩

/-- The two cells are blocked with their cycle, and the cell below them with the first of the two;
the other cell is ordered. -/
theorem entangled_accurate :
    let g : IndexedGraph := changeAll { privateMarker := "_" } entangled
    StronglyConnected g.nodes g.edges [[⟨1⟩, ⟨2⟩], [⟨3⟩], [⟨4⟩]] ∧
      (g.planWith [[⟨1⟩, ⟨2⟩], [⟨3⟩], [⟨4⟩]] (.ofList [⟨2⟩, ⟨4⟩, ⟨9⟩])).Accurate g.toGraph
        (.ofList [⟨2⟩, ⟨4⟩, ⟨9⟩]) ∧
      g.planWith [[⟨1⟩, ⟨2⟩], [⟨3⟩], [⟨4⟩]] (.ofList [⟨2⟩, ⟨4⟩, ⟨9⟩]) =
        { order := [⟨4⟩]
          cycles := [[⟨1⟩, ⟨2⟩]]
          blocked := [(⟨1⟩, .inCycle [⟨1⟩, ⟨2⟩]), (⟨2⟩, .inCycle [⟨1⟩, ⟨2⟩]),
            (⟨3⟩, .downstreamOf ⟨1⟩)] } := by
  have hcomponents : (changeAll { privateMarker := "_" } entangled).components =
      [[⟨1⟩, ⟨2⟩], [⟨3⟩], [⟨4⟩]] := by cbv
  have hplan : (changeAll { privateMarker := "_" } entangled).planWith
      [[⟨1⟩, ⟨2⟩], [⟨3⟩], [⟨4⟩]] (.ofList [⟨2⟩, ⟨4⟩, ⟨9⟩]) =
        { order := [⟨4⟩]
          cycles := [[⟨1⟩, ⟨2⟩]]
          blocked := [(⟨1⟩, .inCycle [⟨1⟩, ⟨2⟩]), (⟨2⟩, .inCycle [⟨1⟩, ⟨2⟩]),
            (⟨3⟩, .downstreamOf ⟨1⟩)] } := by cbv
  have hs := stronglyConnected_components ((Exact.empty "_").changeAll entangled).1
  rw [hcomponents] at hs
  exact ⟨hs, (changeAll_plan_accurate "_" entangled _ _ hs).1, hplan⟩

end IndexedGraph

end Notebook
