/-
  Notebook.Proofs.Kernel.Cycles — the cycles that cells are told about.

  A cell gets the error of a cycle in one place only: where a round blocks it with a cycle of its
  plan.  Every other step takes errors away or records errors of another kind.  So a cycle that a
  kernel has recorded for a cell is one that the cell was blocked with, and what is known of blocked
  cells is known of recorded errors.

  The cells that lie on cycles together share one of their cycles, and not every one of them need be
  on it.

  Main results:
    * `runOnce_cycle_origin` / `runOnce_records_cycle` — which cycles a round records,
    * `Reachable.cycle_origin` — every recorded cycle is one that a plan blocked the cell with,
    * `cycles_through_all_iff` — when all cells are on the cycles that they are blocked with,
    * `figureEight_blocked_beside` — a cell that is blocked with a cycle it is not on.
-/
import Notebook.Proofs.Graph.Branches
import Notebook.Proofs.Graph.Schedule
import Notebook.Proofs.Kernel.Conflicts

namespace Notebook

open Relation

/-- The error that a blocked cell gets. -/
def BlockReason.error : BlockReason → CellError
  | .inCycle cycle => .cycle cycle
  | .downstreamOf ancestor => .ancestorBlocked ancestor

namespace Kernel

variable {κ σ : Type} {k k' k₁ : Kernel κ σ} {id a : CellId} {spec : CellSpec}
  {cycle : List CellId} {roots forced : OrderedSet CellId}

/-! ## §1. Steps that record no cycle. -/

/-- No cell has come to have the error of a cycle. -/
def AddsNoCycle (k k' : Kernel κ σ) : Prop :=
  ∀ id cycle, k'.errors.get? id = some (.cycle cycle) → k.errors.get? id = some (.cycle cycle)

namespace AddsNoCycle

theorem of_eq (h : k'.errors = k.errors) : AddsNoCycle k k' := by
  intro id cycle he
  rwa [h] at he

theorem trans (h : AddsNoCycle k k₁) (h' : AddsNoCycle k₁ k') : AddsNoCycle k k' :=
  fun id cycle he => h id cycle (h' id cycle he)

theorem erased (h : k'.errors = k.errors.erase a) : AddsNoCycle k k' := by
  intro id cycle he
  rw [h, Table.get?_erase] at he
  split at he
  · cases he
  · exact he

/-- An error of another kind. -/
theorem inserted {e : CellError} (h : k'.errors = k.errors.insert a e)
    (hne : ∀ cycle, e ≠ .cycle cycle) : AddsNoCycle k k' := by
  intro id cycle he
  rw [h, Table.get?_insert] at he
  split at he
  · exact absurd (Option.some.inj he) (hne cycle)
  · exact he

theorem removeFromGraph (k : Kernel κ σ) (id : CellId) : AddsNoCycle k (k.removeFromGraph id) := by
  refine of_eq ?_
  unfold Kernel.removeFromGraph
  split
  · rfl
  · rename_i c hc
    obtain ⟨published, heq⟩ := markAll_eq
      (let k := { k with graph := k.graph.unregister id }.unbindAll c.defs.toList
      let session := k.session.removeCell id
      { k with session := { session with cache := (session.cache.invalidate (.ofCell id)).2 } })
      (k.graph.children id)
    dsimp only at heq ⊢
    rw [heq, unbindAll_eq]

theorem park (k : Kernel κ σ) (spec : CellSpec) (conflict : Graph.Conflict) :
    AddsNoCycle k (k.park spec conflict) := by
  refine (removeFromGraph k spec.id).trans (inserted (a := spec.id) rfl fun cycle => ?_)
  exact CellError.noConfusion

theorem retry (k : Kernel κ σ) (id : CellId) : AddsNoCycle k (k.retry id) := by
  unfold Kernel.retry
  split
  · exact of_eq rfl
  · split
    · exact erased rfl
    · exact of_eq rfl

theorem foldl {α : Type} {f : Kernel κ σ → α → Kernel κ σ} (hf : ∀ k a, AddsNoCycle k (f k a))
    (steps : List α) (k : Kernel κ σ) : AddsNoCycle k (steps.foldl f k) := by
  induction steps generalizing k with
  | nil => exact of_eq rfl
  | cons first rest ih => exact (hf k first).trans (ih _)

theorem retryParked (k : Kernel κ σ) : AddsNoCycle k k.retryParked := foldl retry _ k

theorem registerOne (k : Kernel κ σ) (spec : CellSpec) : AddsNoCycle k (k.registerOne spec) := by
  unfold Kernel.registerOne
  split
  · exact of_eq rfl
  · split
    · exact park k spec _
    · obtain ⟨published, heq⟩ := markAll_eq ((k.accept spec.id _).unbindAll _) _
      refine erased (a := spec.id) ?_
      rw [heq, unbindAll_eq]
      rfl

theorem registerCells (k : Kernel κ σ) (specs : List CellSpec) :
    AddsNoCycle k (k.registerCells specs) :=
  (foldl registerOne specs k).trans (retryParked _)

theorem deleteCell (h : k.deleteCell id = .ok k') : AddsNoCycle k k' := by
  rw [deleteCell_eq h]
  refine trans ?_ (retryParked _)
  unfold without
  split
  · exact erased (a := id) rfl
  · exact (removeFromGraph k id).trans (erased (a := id) rfl)

variable [HashFunction]

theorem apply (x : Executor κ σ) (event : Event) (hg : k.graph.WellFormed) :
    AddsNoCycle k (k.apply x event).2 := by
  cases event with
  | register specs => exact registerCells k specs
  | delete cell =>
    show AddsNoCycle k (k.orUnchanged (k.deleteCell cell)).2
    cases h : k.deleteCell cell with
    | ok k' => exact deleteCell h
    | error e => exact of_eq rfl
  | _ => exact of_eq (apply_asked x hg (by simp) (by simp)).errors

/-! ## §2. Rounds. -/

omit [HashFunction] in
theorem failCell (k : Kernel κ σ) (id : CellId) (now : CellStatus) {e : CellError}
    (hne : ∀ cycle, e ≠ .cycle cycle) : AddsNoCycle k (k.failCell id now e) := by
  unfold Kernel.failCell
  simp only [unbindAll_eq]
  exact inserted (a := id) rfl hne

theorem runCell (k : Kernel κ σ) (x : Executor κ σ) (id : CellId) (forced : Bool) :
    AddsNoCycle k (k.runCell x id forced).2 := by
  intro a cycle he
  by_cases hne : a = id
  · subst hne
    cases hc : k.graph.cell? a with
    | none => simpa [Kernel.runCell, hc] using he
    | some c =>
      obtain rfl := Graph.cell?_id hc
      rw [runCell_live x forced hc] at he
      -- the cell has run, or it has failed with a text
      rcases runLive_settled x forced hc with ⟨output, -, h⟩ | ⟨text, -, h⟩ <;>
      · rw [h.errors, if_pos rfl] at he
        cases he
  · rwa [runCell_errors_other k x hne forced] at he

theorem visit (x : Executor κ σ) (forced : OrderedSet CellId) (r : Round κ σ) (id : CellId) :
    AddsNoCycle r.kernel (r.visit x forced id).kernel := by
  rw [kernel_visit]
  split
  · exact of_eq rfl
  · split
    · exact failCell _ _ _ fun cycle => CellError.noConfusion
    · exact runCell _ _ _ _

theorem visits (x : Executor κ σ) (forced : OrderedSet CellId) (ids : List CellId)
    (r : Round κ σ) : AddsNoCycle r.kernel (ids.foldl (Round.visit x forced) r).kernel := by
  induction ids generalizing r with
  | nil => exact of_eq rfl
  | cons first rest ih => exact (visit x forced r first).trans (ih _)

end AddsNoCycle

variable {r : Round κ σ}

theorem block_errors (r : Round κ σ) (id : CellId) (reason : BlockReason) :
    (r.block id reason).kernel.errors = r.kernel.errors.insert id reason.error := by
  cases reason <;>
  · simp only [Round.block, Kernel.failCell, unbindAll_eq]
    rfl

/-- A cell that is blocked has the error of its reason. -/
theorem blocks_errors {blocked : List (CellId × BlockReason)}
    (hnodup : (blocked.map (·.1)).Nodup) :
    (∀ id reason, (id, reason) ∈ blocked →
      (blocked.foldl (fun r b => r.block b.1 b.2) r).kernel.errors.get? id = some reason.error) ∧
    ∀ id, id ∉ blocked.map (·.1) →
      (blocked.foldl (fun r b => r.block b.1 b.2) r).kernel.errors.get? id =
        r.kernel.errors.get? id := by
  induction blocked generalizing r with
  | nil => exact ⟨fun _ _ h => absurd h List.not_mem_nil, fun _ _ => rfl⟩
  | cons first rest ih =>
    obtain ⟨hnot, hnodup⟩ := List.nodup_cons.1 hnodup
    obtain ⟨hin, hout⟩ := ih hnodup (r := r.block first.1 first.2)
    constructor
    · intro id reason h
      rcases List.mem_cons.1 h with rfl | h
      · rw [List.foldl_cons, hout _ hnot, block_errors, Table.get?_insert, if_pos rfl]
      · exact hin id reason h
    · intro id h
      rw [List.foldl_cons, hout id (List.not_mem_of_not_mem_cons h), block_errors,
        Table.get?_insert, if_neg (List.ne_of_not_mem_cons h)]

theorem readied_errors (hg : k.graph.WellFormed) (roots : OrderedSet CellId) :
    (∀ id reason, (id, reason) ∈ (k.graph.plan roots).blocked →
      (k.readied roots {}).kernel.errors.get? id = some reason.error) ∧
    ∀ id, id ∉ (k.graph.plan roots).blocked.map (·.1) →
      (k.readied roots {}).kernel.errors.get? id = k.errors.get? id := by
  have hnodup : ((k.graph.plan roots).blocked.map (·.1)).Nodup := Graph.plan_blocked_nodup hg
  have hblocks := blocks_errors (r := { kernel := k, report := {} }) hnodup
  unfold readied
  dsimp only
  obtain ⟨published, heq⟩ := setStatusAll_eq _ .queued (k.graph.plan roots).order
  rw [heq]
  exact hblocks

variable [HashFunction]

/-- A cycle that is recorded after a round was recorded before, or the cell is blocked with it. -/
theorem runOnce_cycle_origin (hg : k.graph.WellFormed) (x : Executor κ σ)
    (roots forced : OrderedSet CellId) (report : RunReport)
    (h : (k.runOnce x roots forced report).2.errors.get? id = some (.cycle cycle)) :
    k.errors.get? id = some (.cycle cycle) ∨
      (id, .inCycle cycle) ∈ (k.graph.plan roots).blocked := by
  rw [(runOnce_asked hg x roots forced report).errors] at h
  have hready := AddsNoCycle.visits x forced (k.graph.plan roots).order _ id cycle h
  obtain ⟨hin, hout⟩ := readied_errors hg roots
  by_cases hblocked : id ∈ (k.graph.plan roots).blocked.map (·.1)
  · obtain ⟨⟨id, reason⟩, hmem, rfl⟩ := List.mem_map.1 hblocked
    rw [hin id reason hmem] at hready
    cases reason with
    | inCycle cycle' =>
      obtain rfl := CellError.cycle.inj (Option.some.inj hready)
      exact .inr hmem
    | downstreamOf ancestor => cases hready
  · rw [hout id hblocked] at hready
    exact .inl hready

/-- A round records the cycle of each cell that it blocks with one. -/
theorem runOnce_records_cycle (hg : k.graph.WellFormed) (x : Executor κ σ)
    (roots forced : OrderedSet CellId) (report : RunReport)
    (h : (id, .inCycle cycle) ∈ (k.graph.plan roots).blocked) :
    (k.runOnce x roots forced report).2.errors.get? id = some (.cycle cycle) := by
  rw [(runOnce_asked hg x roots forced report).errors]
  have hne : ∀ a ∈ (k.graph.plan roots).order, id ≠ a := by
    rintro a ha rfl
    exact ((Graph.mem_plan_order hg).1 ha).2
      ((Graph.mem_plan_blocked hg).1 (List.mem_map_of_mem h))
  -- no cell that the round comes to is this one
  exact visits_keep (P := fun k' => k'.errors.get? id = some (.cycle cycle)) (fun _ _ _ h => h)
    (fun k' a ha now e h => (failCell_errors_other k' (hne a ha) now e).trans h)
    (fun k' a ha forced h => (runCell_errors_other k' x (hne a ha) forced).trans h)
    forced ((readied_errors hg roots).1 id _ h)

/-! ## §3. Recorded cycles. -/

/-- Every recorded cycle is one that some plan blocked the cell with. -/
theorem Reachable.cycle_origin {x : Executor κ σ} (h : Reachable x k)
    (he : k.errors.get? id = some (.cycle cycle)) :
    ∃ k₀ roots, Reachable x k₀ ∧ (id, .inCycle cycle) ∈ (k₀.graph.plan roots).blocked := by
  induction h with
  | start h =>
    obtain ⟨-, cache, heq⟩ := start_eq h
    rw [heq] at he
    cases he
  | init initial _ ih => exact ih he
  | reset _ ih =>
    rename_i k _
    obtain ⟨published, heq⟩ := reset_eq k
    rw [heq] at he
    have hkept := (Table.get?_filter ..).symm.trans he
    exact ih (Option.filter_eq_some_iff.1 hkept).1
  | apply event h ih => exact ih (AddsNoCycle.apply _ event h.inOrder.wellFormed id cycle he)
  | scheduleWrites h ih =>
    exact ih (AddsNoCycle.of_eq (Asked.scheduleWrites h.inOrder.wellFormed).errors id cycle he)
  | clearPending _ ih => exact ih he
  | round roots forced report h ih =>
    rcases runOnce_cycle_origin h.inOrder.wellFormed _ roots forced report he with he | hblocked
    · exact ih he
    · exact ⟨_, roots, h, hblocked⟩
  | host s _ ih => exact ih he

end Kernel

/-! ## §4. Cells on their cycles, and beside them. -/

namespace Kernel

/-- **Which cells are on the cycles that they are blocked with.**  After any changes, the cycle that
a cell is blocked with is shared by all cells that lie on a cycle with it: it passes through cells of
these only, and through all of them exactly when none of them has two children among them.  So every
blocked cell is on its cycle exactly when no cycles of the run branch.  The rounds of a kernel record
these cycles, and all that a kernel has recorded are such cycles. -/
theorem cycles_through_all_iff (marker : String) (changes : List IndexedGraph.Change)
    (roots : OrderedSet CellId) (components : List (List CellId))
    (h : IndexedGraph.StronglyConnected
      (IndexedGraph.changeAll { privateMarker := marker } changes).nodes
      (IndexedGraph.changeAll { privateMarker := marker } changes).edges components) :
    let g := IndexedGraph.changeAll { privateMarker := marker } changes
    (∀ id cycle, (id, .inCycle cycle) ∈ (g.planWith components roots).blocked →
      g.SharedCycle id cycle) ∧
    ((∀ id cycle, (id, .inCycle cycle) ∈ (g.planWith components roots).blocked → id ∈ cycle) ↔
      ∀ id ∈ g.runSet roots, g.OnCycle id → g.Unbranched id) ∧
    ∀ {κ σ : Type} [HashFunction] (x : Executor κ σ) (k : Kernel κ σ), Reachable x k →
      (∀ roots forced report id cycle, (id, .inCycle cycle) ∈ (k.graph.plan roots).blocked →
        (k.runOnce x roots forced report).2.errors.get? id = some (.cycle cycle)) ∧
      ∀ id cycle, k.errors.get? id = some (.cycle cycle) →
        ∃ k₀ roots, Reachable x k₀ ∧ (id, .inCycle cycle) ∈ (k₀.graph.plan roots).blocked ∧
          k₀.graph.SharedCycle id cycle := by
  intro g
  have hexact : g.Exact := ((IndexedGraph.Exact.empty marker).changeAll changes).1
  rw [IndexedGraph.planWith_eq hexact h]
  refine ⟨fun id cycle => Graph.plan_sharedCycle hexact.wellFormed,
    Graph.plan_through_all_iff hexact.wellFormed, ?_⟩
  intro κ σ _ x k hreached
  constructor
  · intro roots forced report id cycle hblocked
    exact runOnce_records_cycle hreached.inOrder.wellFormed x roots forced report hblocked
  · intro id cycle he
    obtain ⟨k₀, roots, hbefore, hblocked⟩ := hreached.cycle_origin he
    exact ⟨k₀, roots, hbefore, hblocked, Graph.plan_sharedCycle hbefore.inOrder.wellFormed hblocked⟩

/-- Three cells, each of which reads what the one before defines, and the first what the last one
does. -/
def ring : List IndexedGraph.Change :=
  [.register ⟨⟨0⟩, "a = c", .ofList ["a"], .ofList ["c"]⟩,
    .register ⟨⟨1⟩, "b = a", .ofList ["b"], .ofList ["a"]⟩,
    .register ⟨⟨2⟩, "c = b", .ofList ["c"], .ofList ["b"]⟩]

/-- Each of the three is on the cycle that all of them are blocked with. -/
theorem ring_through_all :
    let g := IndexedGraph.changeAll { privateMarker := "_" } ring
    IndexedGraph.StronglyConnected g.nodes g.edges [[⟨0⟩, ⟨1⟩, ⟨2⟩]] ∧
      (g.planWith [[⟨0⟩, ⟨1⟩, ⟨2⟩]] (.ofList [⟨1⟩])).blocked =
        [⟨0⟩, ⟨1⟩, ⟨2⟩].map (fun id => (id, .inCycle [⟨0⟩, ⟨1⟩, ⟨2⟩])) ∧
      g.SharedCycle ⟨2⟩ [⟨0⟩, ⟨1⟩, ⟨2⟩] ∧
      ∀ id ∈ g.runSet (.ofList [⟨1⟩]), g.OnCycle id → g.Unbranched id := by
  have hcomponents : (IndexedGraph.changeAll { privateMarker := "_" } ring).components =
      [[⟨0⟩, ⟨1⟩, ⟨2⟩]] := by cbv
  have hblocked : ((IndexedGraph.changeAll { privateMarker := "_" } ring).planWith
      [[⟨0⟩, ⟨1⟩, ⟨2⟩]] (.ofList [⟨1⟩])).blocked =
        [⟨0⟩, ⟨1⟩, ⟨2⟩].map (fun id => (id, .inCycle [⟨0⟩, ⟨1⟩, ⟨2⟩])) := by cbv
  have hs := IndexedGraph.stronglyConnected_components
    ((IndexedGraph.Exact.empty "_").changeAll ring).1
  rw [hcomponents] at hs
  obtain ⟨hshared, hiff, -⟩ := cycles_through_all_iff "_" ring (.ofList [⟨1⟩]) _ hs
  refine ⟨hs, hblocked, hshared ⟨2⟩ _ ?_, hiff.1 fun id cycle hin => ?_⟩
  · rw [hblocked]
    simp
  · rw [hblocked] at hin
    simp only [List.map_cons, List.map_nil, List.mem_cons, Prod.mk.injEq,
      BlockReason.inCycle.injEq, List.not_mem_nil, or_false] at hin
    rcases hin with ⟨rfl, rfl⟩ | ⟨rfl, rfl⟩ | ⟨rfl, rfl⟩ <;> simp

/-- Two cycles that meet in the cell in the middle. -/
def figureEight : List IndexedGraph.Change :=
  [.register ⟨⟨0⟩, "a = b", .ofList ["a"], .ofList ["b"]⟩,
    .register ⟨⟨1⟩, "b = a + c", .ofList ["b"], .ofList ["a", "c"]⟩,
    .register ⟨⟨2⟩, "c = b", .ofList ["c"], .ofList ["b"]⟩]

/-- **A cell beside its cycle.**  All three cells are blocked with the cycle of the first two. -/
theorem figureEight_blocked_beside :
    ¬ ∀ (marker : String) (changes : List IndexedGraph.Change) (roots : OrderedSet CellId)
      (id : CellId) (cycle : List CellId),
      let g := IndexedGraph.changeAll { privateMarker := marker } changes
      (id, .inCycle cycle) ∈ (g.plan roots).blocked → Circuit g.Edge cycle ∧ id ∈ cycle := by
  intro hall
  have hblocked : ((IndexedGraph.changeAll { privateMarker := "_" } figureEight).plan
      (.ofList [⟨0⟩])).blocked =
        [⟨0⟩, ⟨1⟩, ⟨2⟩].map (fun id => (id, .inCycle [⟨0⟩, ⟨1⟩])) := by cbv
  have hbeside := hall "_" figureEight (.ofList [⟨0⟩]) ⟨2⟩ [⟨0⟩, ⟨1⟩] (by
    rw [hblocked]
    simp)
  simp at hbeside

end Kernel

end Notebook
