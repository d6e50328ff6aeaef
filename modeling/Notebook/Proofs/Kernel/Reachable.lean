/-
  Notebook.Proofs.Kernel.Reachable — the kernels that can come about, and what holds of all of them.

  A kernel is reached from a new one by requests, events and rounds, in any order, while whoever
  hosts it may do anything to the session in between.  Most of what happens only asks for cells to
  be run (`Asked`); cells change by edits and by rounds alone.

  Main results:
    * `apply_cases` — an event is a chain of edits, or it only asks,
    * `InOrder` and its lemmas — coherent books and no cell left queued or running, kept by edits,
      requests and rounds,
    * `Reachable.inOrder` — so it holds of every kernel that is reached,
    * `Reachable.runUntilIdle?` — a run, with all that its programs send, stays within reach.
-/
import Notebook.Proofs.Kernel.Edit

namespace Notebook

open Relation

namespace Kernel

variable {κ σ : Type} {k k' k₁ : Kernel κ σ} {S : CellSpec → Prop}

/-! ## §1. Requests. -/

/-- Nothing has changed but the session, the messages and what is to be run, and that has grown by
live cells. -/
structure Asked (k k' : Kernel κ σ) : Prop where
  graph : k'.graph = k.graph
  parked : k'.parked = k.parked
  names : k'.names = k.names
  errors : k'.errors = k.errors
  config : k'.config = k.config
  pending : ∀ id, k.pending.has id = true → k'.pending.has id = true
  live : ∀ id, k'.pending.has id = true → k.pending.has id = true ∨ k.graph.contains id = true
  forced : ∀ id, k'.forced.has id = true → k.forced.has id = true ∨ k'.pending.has id = true

namespace Asked

/-- The session and the messages are of no concern. -/
theorem told (k : Kernel κ σ) (session : Session κ σ) (published : List Message) :
    Asked k { k with session, published } :=
  ⟨rfl, rfl, rfl, rfl, rfl, fun _ h => h, fun _ h => .inl h, fun _ h => .inl h⟩

theorem refl (k : Kernel κ σ) : Asked k k := told k k.session k.published

theorem trans (h : Asked k k₁) (h' : Asked k₁ k') : Asked k k' where
  graph := h'.graph.trans h.graph
  parked := h'.parked.trans h.parked
  names := h'.names.trans h.names
  errors := h'.errors.trans h.errors
  config := h'.config.trans h.config
  pending := fun id hid => h'.pending id (h.pending id hid)
  live := by
    intro id hid
    rcases h'.live id hid with hid | hid
    · exact h.live id hid
    · exact .inr (h.graph ▸ hid)
  forced := by
    intro id hid
    rcases h'.forced id hid with hid | hid
    · exact (h.forced id hid).imp_right (h'.pending id)
    · exact .inr hid

/-- Queueing live cells. -/
theorem schedule {cells : List CellId} (hlive : ∀ a ∈ cells, k.graph.contains a = true) :
    Asked k (k.schedule cells) where
  graph := rfl
  parked := rfl
  names := rfl
  errors := rfl
  config := rfl
  pending := fun _ h => OrderedSet.has_addAll.2 (.inr h)
  live := fun id h => (OrderedSet.has_addAll.1 h).symm.imp_right (hlive id)
  forced := fun _ h => .inl h

/-- Whoever reads a name is live. -/
theorem live_of_readersOf {g : Graph} (hg : g.WellFormed) {names : List String} {a : CellId}
    (h : (g.readersOf names).has a = true) : g.contains a = true := by
  obtain ⟨-, -, -, c, hc, -⟩ := (Graph.has_readersOf hg).1 h
  exact Graph.contains_of_cell? hc

theorem scheduleWrites (hg : k.graph.WellFormed) : Asked k k.scheduleWrites := by
  -- on the writes; each of them queues live cells and leaves the graph alone
  have key : ∀ (readers : Kernel κ σ → StateWrite → List CellId) (writes : List StateWrite),
      (∀ (k : Kernel κ σ) w, k.graph.WellFormed → ∀ a ∈ readers k w, k.graph.contains a = true) →
      ∀ k : Kernel κ σ, k.graph.WellFormed →
        Asked k (writes.foldl (fun k w => k.schedule (readers k w)) k) := by
    intro readers writes hreaders
    induction writes with
    | nil => exact fun k _ => refl k
    | cons w rest ih =>
      intro k hg
      exact (schedule (hreaders k w hg)).trans (ih (k.schedule (readers k w)) hg)
  have hclear := told k { k.session with states := { k.session.states with writes := [] } }
    k.published
  refine hclear.trans (key _ k.session.states.writes (fun k w hg a ha => ?_) _ hg)
  rw [OrderedSet.mem_toList] at ha
  split at ha
  · exact live_of_readersOf hg (OrderedSet.has_remove.1 ha).2
  · exact live_of_readersOf hg ha

theorem runCells (k : Kernel κ σ) (cells : List CellId) : Asked k (k.runCells cells).2 := by
  induction cells generalizing k with
  | nil => exact refl k
  | cons first rest ih =>
    unfold Kernel.runCells
    split
    · rename_i hlive
      have hadd : Asked k { k with
          pending := k.pending.add first, forced := k.forced.add first } :=
        { told k k.session k.published with
          pending := fun _ h => OrderedSet.has_add.2 (.inr h)
          live := by
            intro id h
            rcases OrderedSet.has_add.1 h with rfl | h
            · exact .inr hlive
            · exact .inl h
          forced := by
            intro id h
            rcases OrderedSet.has_add.1 h with rfl | h
            · exact .inr (OrderedSet.has_add.2 (.inl rfl))
            · exact .inl h }
      exact hadd.trans (ih _)
    · split
      · exact ih k
      · exact refl k

theorem orUnchanged {result : Except Error (Kernel κ σ)}
    (h : ∀ k', result = .ok k' → Asked k k') : Asked k (k.orUnchanged result).2 := by
  cases result with
  | ok k' => exact h k' rfl
  | error e => exact refl k

end Asked

/-- Scheduling writes empties their queue, and does nothing else to the session. -/
theorem scheduleWrites_session (k : Kernel κ σ) : k.scheduleWrites.session =
    { k.session with states := { k.session.states with writes := [] } } := by
  have hfold : ∀ (readers : Kernel κ σ → StateWrite → List CellId) (writes : List StateWrite)
      (k : Kernel κ σ),
      (writes.foldl (fun k w => k.schedule (readers k w)) k).session = k.session := by
    intro readers writes
    induction writes with
    | nil => intro k; rfl
    | cons w rest ih => intro k; exact ih _
  exact hfold _ k.session.states.writes
    { k with session.states := { k.session.states with writes := [] } }

/-- Asking for cells to be run leaves the session alone. -/
theorem runCells_session (k : Kernel κ σ) (cells : List CellId) :
    (k.runCells cells).2.session = k.session := by
  induction cells generalizing k with
  | nil => rfl
  | cons first rest ih =>
    unfold Kernel.runCells
    split
    · exact ih _
    · split
      · exact ih _
      · rfl

variable [HashFunction]

/-- An event that neither registers nor deletes cells only asks. -/
theorem apply_asked (x : Executor κ σ) {event : Event} (hg : k.graph.WellFormed)
    (hregister : ∀ specs, event ≠ .register specs) (hdelete : ∀ cell, event ≠ .delete cell) :
    Asked k (k.apply x event).2 := by
  cases event with
  | register specs => exact absurd rfl (hregister specs)
  | delete cell => exact absurd rfl (hdelete cell)
  | run cells => exact .runCells k cells.toList
  | setElement element value =>
    refine .orUnchanged fun k' h => ?_
    unfold setElementValue at h
    cases hset : k.session.elements.setValue element value with
    | error e => simp [hset, Except.map] at h
    | ok set =>
      obtain ⟨⟨root, patch⟩, elements⟩ := set
      rw [hset] at h
      obtain rfl := Except.ok.inj h
      have htold := Asked.told k { k.session with elements }
        (.elementValue root patch :: k.published)
      exact htold.trans (Asked.schedule fun a ha =>
        Asked.live_of_readersOf hg (OrderedSet.mem_toList.1 ha))
  | updateModel model patch =>
    refine .orUnchanged fun k' h => ?_
    unfold updateModel at h
    cases htold : k.session.dispatch x model patch with
    | error e => simp [htold, Except.map] at h
    | ok told =>
      obtain ⟨owner, s⟩ := told
      rw [htold] at h
      obtain rfl := Except.ok.inj h
      refine (Asked.told k s k.published).trans (.trans (.schedule fun a ha => ?_)
        (.scheduleWrites hg))
      exact Asked.live_of_readersOf hg (OrderedSet.has_remove.1 (OrderedSet.mem_toList.1 ha)).2
  | setState state value =>
    refine .orUnchanged fun k' h => ?_
    unfold setState at h
    split at h
    · rename_i s hwritten
      obtain rfl := Except.ok.inj h
      exact (Asked.told k s k.published).trans (.scheduleWrites hg)
    · cases h
  | watchTriggered watch =>
    exact .schedule fun a ha => Asked.live_of_readersOf hg (OrderedSet.mem_toList.1 ha)
  | complete request start => exact .told k k.session _

/-- An event registers or deletes cells, or else it only asks. -/
theorem apply_cases (x : Executor κ σ) (event : Event) (hk : k.Coherent)
    (hwait : WaitFor (fun _ => True) k) :
    ReflTransGen (Edit fun _ => True) k (k.apply x event).2 ∨ Asked k (k.apply x event).2 := by
  cases event with
  | register specs => exact .inl (registerCells_edits hk hwait fun _ _ => trivial)
  | delete cell =>
    refine .inl ?_
    show ReflTransGen _ k (k.orUnchanged (k.deleteCell cell)).2
    cases h : k.deleteCell cell with
    | ok k' => exact deleteCell_edits hk hwait h
    | error e => exact .refl
  | _ => exact .inr (apply_asked x hk.wellFormed (by simp) (by simp))

/-! ## §2. Kernels in order. -/

omit [HashFunction] in
theorem AtRest.edit (hrest : k.AtRest) (hk : k.Coherent) (h : Edit S k k') : k'.AtRest := by
  intro a
  have hg := hk.wellFormed
  cases h with
  | @removed c h =>
    by_cases ha : a = c.id
    · rw [ha, Graph.status?_of_not_live h.not_live]
      exact ⟨by simp, by simp⟩
    · rcases h.status ha with hs | hs <;> rw [hs]
      · exact ⟨by simp, by simp⟩
      · exact hrest a
  | noted h =>
    rw [h.graph]
    exact hrest a
  | @registered spec g dropped h =>
    cases hreader : (g.readersOf dropped).has a with
    | true =>
      rw [h.status_reader a hreader]
      exact ⟨by simp, by simp⟩
    | false =>
      rw [h.status_other a hreader, Graph.status?_register hg h.accepted]
      split
      · have := hrest a
        cases hs : k.graph.status? a with
        | none => exact ⟨by simp, by simp⟩
        | some s =>
          rw [hs] at this
          exact this
      · exact hrest a

/-- The books are coherent, registrations that wait were asked for, and nothing waits or runs. -/
structure InOrder (S : CellSpec → Prop) (k : Kernel κ σ) : Prop extends Coherent k where
  waitFor : WaitFor S k
  atRest : AtRest k

namespace InOrder

omit [HashFunction] in
theorem edits (hk : InOrder S k) (h : ReflTransGen (Edit S) k k') : InOrder S k' := by
  refine ⟨coherent_of_edits hk.toCoherent h, waitFor_of_edits hk.waitFor h, ?_⟩
  induction h with
  | refl => exact hk.atRest
  | tail hchain hstep ih => exact ih.edit (coherent_of_edits hk.toCoherent hchain) hstep

omit [HashFunction] in
theorem asked (hk : InOrder S k) (h : Asked k k') : InOrder S k' := by
  obtain ⟨⟨hg, hparked⟩, hwait, hrest⟩ := hk
  refine ⟨⟨h.graph ▸ hg, ?_⟩, ?_, ?_⟩
  · rw [h.graph, h.parked]
    exact hparked
  · unfold WaitFor
    rw [h.parked]
    exact hwait
  · unfold AtRest
    rw [h.graph]
    exact hrest

omit [HashFunction] in
/-- What keeps the shape of the graph and the parked cells need only see to the statuses. -/
theorem reshaped (hk : InOrder S k) (hshape : k'.graph.shape = k.graph.shape)
    (hparked : k'.parked = k.parked) (hrest : k'.AtRest) : InOrder S k' := by
  refine ⟨⟨hk.wellFormed.congr hshape.symm, fun id hid => ?_⟩, ?_, hrest⟩
  · rw [hparked] at hid
    rw [Graph.contains_congr hshape]
    exact hk.parked_not_live id hid
  · unfold WaitFor
    rw [hparked]
    exact hk.waitFor

omit [HashFunction] in
/-- What leaves the graph and the parked cells alone has nothing to see to. -/
theorem same (hk : InOrder S k) (hgraph : k'.graph = k.graph) (hparked : k'.parked = k.parked) :
    InOrder S k' := by
  refine hk.reshaped (congrArg Graph.shape hgraph) hparked ?_
  unfold AtRest
  rw [hgraph]
  exact hk.atRest

omit [HashFunction] in
theorem clearPending (hk : InOrder S k) : InOrder S k.clearPending := hk.same rfl rfl

omit [HashFunction] in
theorem reset (hk : InOrder S k) : InOrder S k.reset := by
  obtain ⟨published, heq⟩ := reset_eq k
  rw [heq]
  -- every live cell is idle now, and the others have no status
  refine hk.reshaped (Graph.shape_withStatus ..) rfl fun a => ?_
  show (k.graph.withStatus .idle k.graph.ids).status? a ≠ _ ∧ _
  rw [Graph.status?_withStatus_ids]
  cases k.graph.status? a <;> exact ⟨by simp, by simp⟩

end InOrder

/-- What every event keeps is kept by events in turn. -/
theorem applyAll_keeps {P : Kernel κ σ → Prop} {x : Executor κ σ}
    (happly : ∀ k event, P k → P (k.apply x event).2) (h : P k) (events : List Event) :
    P (k.applyAll x events) := by
  induction events generalizing k with
  | nil => exact h
  | cons event rest ih => exact ih (happly k event h)

theorem InOrder.apply (hk : InOrder (fun _ => True) k) (x : Executor κ σ) (event : Event) :
    InOrder (fun _ => True) (k.apply x event).2 := by
  rcases apply_cases x event hk.toCoherent hk.waitFor with hedits | hasked
  · exact hk.edits hedits
  · exact hk.asked hasked

theorem InOrder.applyAll (hk : InOrder (fun _ => True) k) (x : Executor κ σ)
    (events : List Event) : InOrder (fun _ => True) (k.applyAll x events) :=
  applyAll_keeps (fun _ event hk => hk.apply x event) hk events

/-- The queued events and writes are applied before a round. -/
theorem InOrder.ready (hk : InOrder (fun _ => True) k) (x : Executor κ σ) :
    InOrder (fun _ => True) (k.drain x).2.scheduleWrites := by
  have hinbox : Asked k { k with session.inbox := [] } := .told k _ _
  have hdrained := (hk.asked hinbox).applyAll x (Event.coalesce k.session.inbox)
  exact hdrained.asked (.scheduleWrites hdrained.wellFormed)

/-! ## §3. Rounds leave no cell waiting. -/

/-- Whether or not a run is to stop, a cell that the round comes to no longer waits, and the other
cells stand where they stood. -/
theorem visit_status (x : Executor κ σ) (forced : OrderedSet CellId) {r : Round κ σ} {c : Cell}
    (hc : r.kernel.graph.cell? c.id = some c) :
    Undisturbed r.kernel (r.visit x forced c.id).kernel ∧
      ∃ now, now ≠ .queued ∧ now ≠ .running ∧ ∀ a,
        (r.visit x forced c.id).kernel.graph.status? a =
          if a = c.id then some now else r.kernel.graph.status? a := by
  cases hrun : r.kernel.session.aborted with
  | true =>
    rw [kernel_visit_aborted x forced c.id hrun]
    exact ⟨⟨Graph.shape_setStatus .., rfl, rfl, rfl, rfl, rfl⟩, .stale, by simp, by simp,
      status?_setStatus_of_live hc .stale⟩
  | false =>
    have hvisited := visit_cases x forced hc hrun
    generalize r.visit x forced c.id = r' at hvisited ⊢
    cases hvisited with
    | skipped _ h _ => exact ⟨h.toUndisturbed, .stale, by simp, by simp, h.status⟩
    | executed _ _ h => exact ⟨h.toUndisturbed, .idle, by simp, by simp, h.status⟩
    | cached _ _ h => exact ⟨h.toUndisturbed, .idle, by simp, by simp, h.status⟩
    | failed _ _ h => exact ⟨h.toUndisturbed, .error, by simp, by simp, h.status⟩

theorem visits_status (x : Executor κ σ) (forced : OrderedSet CellId) (ids : List CellId)
    {r : Round κ σ} (hlive : ∀ id ∈ ids, r.kernel.graph.contains id = true) :
    Undisturbed r.kernel (ids.foldl (Round.visit x forced) r).kernel ∧
      ∀ a, (a ∉ ids → r.kernel.graph.status? a ≠ some .queued ∧
          r.kernel.graph.status? a ≠ some .running) →
        (ids.foldl (Round.visit x forced) r).kernel.graph.status? a ≠ some .queued ∧
          (ids.foldl (Round.visit x forced) r).kernel.graph.status? a ≠ some .running := by
  induction ids generalizing r with
  | nil => exact ⟨.refl _, fun a ha => ha List.not_mem_nil⟩
  | cons first rest ih =>
    obtain ⟨c, hc⟩ := Option.isSome_iff_exists.1 (hlive first (List.mem_cons_self ..))
    obtain rfl := Graph.cell?_id hc
    obtain ⟨hundisturbed, now, hqueued, hrunning, hstatus⟩ := visit_status x forced hc
    have hlive' : ∀ id ∈ rest, (r.visit x forced c.id).kernel.graph.contains id = true := by
      intro id hid
      rw [Graph.contains_congr hundisturbed.shape]
      exact hlive id (List.mem_cons_of_mem _ hid)
    obtain ⟨hrest, hall⟩ := ih hlive'
    refine ⟨hundisturbed.trans hrest, fun a ha => hall a fun hnot => ?_⟩
    rw [hstatus]
    split
    · exact ⟨by simpa using hqueued, by simpa using hrunning⟩
    · rename_i hne
      exact ha (by simp [hne, hnot])

/-- The kernel when a round has come to all cells of its plan. -/
def visitedAll (k : Kernel κ σ) (x : Executor κ σ) (roots forced : OrderedSet CellId) :
    Kernel κ σ :=
  ((k.graph.plan roots).order.foldl (Round.visit x forced) (k.readied roots {})).kernel

theorem visitedAll_status (hg : k.graph.WellFormed) (x : Executor κ σ)
    (roots forced : OrderedSet CellId) :
    Undisturbed k (k.visitedAll x roots forced) ∧ ∀ a,
      (a ∉ (k.graph.plan roots).order → (k.readied roots {}).kernel.graph.status? a ≠ some .queued ∧
        (k.readied roots {}).kernel.graph.status? a ≠ some .running) →
      (k.visitedAll x roots forced).graph.status? a ≠ some .queued ∧
        (k.visitedAll x roots forced).graph.status? a ≠ some .running := by
  have hbegin := underway_readied hg roots
  obtain ⟨hvisited, hstatus⟩ := visits_status x forced (k.graph.plan roots).order
    (r := k.readied roots {}) (fun _ => hbegin.live_now)
  exact ⟨hbegin.toUndisturbed.trans hvisited, hstatus⟩

/-- After its last cell a round only asks. -/
theorem runOnce_asked (hg : k.graph.WellFormed) (x : Executor κ σ)
    (roots forced : OrderedSet CellId) (report : RunReport) :
    Asked (k.visitedAll x roots forced) (k.runOnce x roots forced report).2 := by
  obtain ⟨hundisturbed, -⟩ := visitedAll_status hg x roots forced
  rw [runOnce_report, runOnce_eq]
  exact .trans (.told _ _ _) (.scheduleWrites (hundisturbed.wellFormed hg))

omit [HashFunction] in
/-- When the first cell of a round is come to, no cell waits but those that are still to come. -/
theorem InOrder.readied_status (hk : InOrder S k) (roots : OrderedSet CellId) {a : CellId}
    (hnot : a ∉ (k.graph.plan roots).order) :
    (k.readied roots {}).kernel.graph.status? a ≠ some .queued ∧
      (k.readied roots {}).kernel.graph.status? a ≠ some .running := by
  have hbegin := underway_readied hk.wellFormed roots
  -- a cell that the round does not come to was blocked, or it is outside of the run-set
  by_cases hdone : a ∈ (k.graph.plan roots).blocked.map (·.1)
  · by_cases hfailed : a ∈ (k.readied roots {}).failed
    · rcases (hbegin.broken a hfailed).status with h | h <;> rw [h] <;> exact ⟨by simp, by simp⟩
    · rw [(hbegin.fine a hdone hfailed).status]
      exact ⟨by simp, by simp⟩
  · rw [hbegin.outside_status a hdone hnot]
    exact hk.atRest a

theorem InOrder.round (hk : InOrder S k) (x : Executor κ σ) (roots forced : OrderedSet CellId)
    (report : RunReport) : InOrder S (k.runOnce x roots forced report).2 := by
  obtain ⟨hundisturbed, hstatus⟩ := visitedAll_status hk.wellFormed x roots forced
  refine InOrder.asked ?_ (runOnce_asked hk.wellFormed x roots forced report)
  exact hk.reshaped hundisturbed.shape hundisturbed.parked fun a =>
    hstatus a (hk.readied_status roots)

/-- What is kept when an event is applied, when writes are scheduled, when nothing is pending any
more and when a round runs, is kept by a whole run.  The queue of events and a request to stop must
be of no concern to it. -/
theorem runUntilIdle?_keeps {P : Kernel κ σ → Prop} {x : Executor κ σ} {rounds : Nat}
    {report : RunReport}
    (hqueue : ∀ k inbox aborted, P k → P { k with session := { k.session with inbox, aborted } })
    (happly : ∀ k event, P k → P (k.apply x event).2)
    (hwrites : ∀ k, P k → P k.scheduleWrites) (hclear : ∀ k, P k → P k.clearPending)
    (hround : ∀ k roots forced report, P k → P (k.runOnce x roots forced report).2)
    (h : P k) (hrun : k.runUntilIdle? x rounds = some (report, k')) : P k' := by
  have hrounds : ∀ (rounds : Nat) (k : Kernel κ σ) (before : RunReport), P k →
      runRounds x rounds k before = some (report, k') → P k' := by
    intro rounds
    induction rounds with
    | zero => exact fun k before h hrun => nomatch hrun
    | succ rounds ih =>
      intro k before h hrun
      unfold runRounds at hrun
      dsimp only at hrun
      have hready : P (k.drain x).2.scheduleWrites :=
        hwrites _ (applyAll_keeps happly (hqueue k [] k.session.aborted h) _)
      split at hrun
      · obtain ⟨-, rfl⟩ := Prod.mk.inj (Option.some.inj hrun)
        exact hready
      · have hrun' := hround _ (k.drain x).2.scheduleWrites.pending
          (k.drain x).2.scheduleWrites.forced before (hclear _ hready)
        split at hrun
        · obtain ⟨-, rfl⟩ := Prod.mk.inj (Option.some.inj hrun)
          exact hclear _ hrun'
        · exact ih _ _ hrun' hrun
  exact hrounds rounds _ {} (hqueue k k.session.inbox false h) hrun

/-! ## §4. Reachable kernels. -/

/-- The kernels that come about when cells are run by `x`. -/
inductive Reachable (x : Executor κ σ) : Kernel κ σ → Prop
  | start {config : Config} {disk : Disk} {clock : Nat} {own : σ} {k : Kernel κ σ} :
    Kernel.start config disk clock own = .ok k → Reachable x k
  | init {k : Kernel κ σ} (initial : List (String × Binding)) :
    Reachable x k → Reachable x (k.init initial)
  | reset {k : Kernel κ σ} : Reachable x k → Reachable x k.reset
  | apply {k : Kernel κ σ} (event : Event) : Reachable x k → Reachable x (k.apply x event).2
  | scheduleWrites {k : Kernel κ σ} : Reachable x k → Reachable x k.scheduleWrites
  | clearPending {k : Kernel κ σ} : Reachable x k → Reachable x k.clearPending
  | round {k : Kernel κ σ} (roots forced : OrderedSet CellId) (report : RunReport) :
    Reachable x k → Reachable x (k.runOnce x roots forced report).2
  /-- Whoever hosts the kernel acts on the session. -/
  | host {k : Kernel κ σ} (s : Session κ σ) : Reachable x k → Reachable x { k with session := s }

omit [HashFunction] in
/-- A new kernel has no cells. -/
theorem start_eq {config : Config} {disk : Disk} {clock : Nat} {own : σ}
    (h : Kernel.start config disk clock own = .ok k) :
    config.validate = .ok k.config ∧ ∃ cache, k =
      { config := k.config
        graph := { privateMarker := k.config.privateMarker }
        session := { cache, disk, own } } := by
  unfold Kernel.start at h
  split at h
  · cases h
  · rename_i config' hconfig
    obtain rfl := Except.ok.inj h
    exact ⟨hconfig, _, rfl⟩

omit [HashFunction] in
theorem InOrder.start {config : Config} {disk : Disk} {clock : Nat} {own : σ}
    (h : Kernel.start config disk clock own = .ok k) : InOrder S k := by
  obtain ⟨-, cache, heq⟩ := start_eq h
  rw [heq]
  exact
    { wellFormed := ⟨List.nodup_nil, fun c hc => absurd hc List.not_mem_nil⟩
      parked_not_live := fun _ _ => rfl
      waitFor := fun _ _ h => by cases h
      atRest := fun _ => ⟨by simp [Graph.status?, Graph.cell?], by
        simp [Graph.status?, Graph.cell?]⟩ }

namespace Reachable

variable {x : Executor κ σ}

/-- Every kernel that is reached is in order. -/
theorem inOrder (h : Reachable x k) : InOrder (fun _ => True) k := by
  induction h with
  | start h => exact .start h
  | init initial _ ih => exact ih.same rfl rfl
  | reset _ ih => exact ih.reset
  | apply event _ ih => exact ih.apply x event
  | scheduleWrites _ ih => exact ih.asked (.scheduleWrites ih.wellFormed)
  | clearPending _ ih => exact ih.clearPending
  | round roots forced report _ ih => exact ih.round x roots forced report
  | host s _ ih => exact ih.same rfl rfl

/-- A run, with all that its programs send, stays within reach. -/
theorem runUntilIdle? (h : Reachable x k) {rounds : Nat} {report : RunReport}
    (hrun : k.runUntilIdle? x rounds = some (report, k')) : Reachable x k' :=
  runUntilIdle?_keeps (fun _ _ _ h => h.host _) (fun _ event h => h.apply event)
    (fun _ h => h.scheduleWrites) (fun _ h => h.clearPending)
    (fun _ roots forced report h => h.round roots forced report) h hrun

end Reachable

end Kernel

end Notebook
