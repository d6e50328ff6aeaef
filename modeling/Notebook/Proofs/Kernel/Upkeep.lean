/-
  Notebook.Proofs.Kernel.Upkeep — nothing outlives its owner.

  What a cell has set up goes at different moments: its states, watches and observers when it begins
  to run again, its models when the run is over and did not bind them again, and all of it when the
  cell is removed or the kernel is reset.  Observers that are told about a change set things up as
  well, on behalf of the cell that owns the model, outside of any run.  The chronicle of deeds is read
  off the programs and observers that run; after all of it, whoever holds something is live and holds
  it since it began to run the latest time.

  Main results:
    * `Upkept.runLive` / `Upkept.updateModel` — a run and an update keep what `Upkept` says,
    * `Upkept.edit` — and so does every edit,
    * `Attended.upkept` — so it holds of every kernel between two operations.
-/
import Notebook.Proofs.Kernel.Chronicle
import Notebook.Proofs.Kernel.Informed
import Notebook.Proofs.Session.Holdings

namespace Notebook

open Relation

namespace Kernel

variable {κ σ : Type} {k k' : Kernel κ σ} {c : Cell} {T : List (Deed κ)} {S : CellSpec → Prop}

/-! ## §1. Between two operations. -/

/-- No activity is under way, and after the chronicle `T` whoever holds something is live and holds
it since it began to run the latest time. -/
structure Upkept (T : List (Deed κ)) (k : Kernel κ σ) : Prop where
  idle : k.session.frames = []
  kept : Kept (fun c => k.graph.contains c = true) T k.session

namespace Upkept

/-- What leaves the cells and their holdings alone has nothing to see to. -/
theorem congr (h : Upkept T k) (hshape : k'.graph.shape = k.graph.shape)
    (hframes : k'.session.frames = k.session.frames)
    (hstates : k'.session.states.slots = k.session.states.slots)
    (hwatches : k'.session.watches = k.session.watches)
    (hmodels : k'.session.models = k.session.models) : Upkept T k' where
  idle := hframes.trans h.idle
  kept := (h.kept.lose (.of_eq hstates hwatches hmodels)).mono fun c hc => by
    rw [Graph.contains_congr hshape]
    exact hc

/-- A removed cell takes all that it holds with it, and no other edit concerns what cells hold. -/
theorem edit (h : Upkept T k) (hk : k.Coherent) (hedit : Edit S k k') : Upkept T k' := by
  cases hedit with
  | @removed c hr =>
    obtain ⟨cache, hsession⟩ := hr.tables
    have hkept : Kept (fun a => k.graph.contains a = true ∧ a ≠ c.id) T k'.session := by
      rw [hsession]
      exact (h.kept.removeCell c.id).lose (.of_eq rfl rfl rfl)
    refine ⟨by rw [hsession]; exact h.idle, hkept.mono fun a ⟨ha, hne⟩ => ?_⟩
    rw [Graph.contains_congr hr.shape, Graph.contains, Graph.cell?_unregister, if_neg hne]
    exact ha
  | noted hn =>
    exact h.congr (by rw [hn.graph]) (by rw [hn.session]) (by rw [hn.session])
      (by rw [hn.session]) (by rw [hn.session])
  | registered hr =>
    have hkept : Kept (fun a => k.graph.contains a = true) T k'.session := by
      rw [hr.tables]
      exact h.kept.lose (.of_eq rfl rfl rfl)
    refine ⟨by rw [hr.tables]; exact h.idle, hkept.mono fun a ha => ?_⟩
    exact (hr.contains hk.wellFormed).2 (.inr ha)

theorem edits (h : Upkept T k) (hk : k.Coherent) (hchain : ReflTransGen (Edit S) k k') :
    Upkept T k' := by
  induction hchain with
  | refl => exact h
  | tail hchain hstep ih => exact ih.edit (coherent_of_edits hk hchain) hstep

theorem scheduleWrites (h : Upkept T k) (hg : k.graph.WellFormed) : Upkept T k.scheduleWrites :=
  h.congr (by rw [(Asked.scheduleWrites hg).graph]) (by rw [scheduleWrites_session])
    (by rw [scheduleWrites_session]) (by rw [scheduleWrites_session])
    (by rw [scheduleWrites_session])

theorem failCell (h : Upkept T k) (id : CellId) (now : CellStatus) (e : CellError) :
    Upkept T (k.failCell id now e) := by
  obtain ⟨elements, hsession⟩ := failCell_session k id now e
  have hshape : (k.failCell id now e).graph.shape = k.graph.shape := by
    unfold Kernel.failCell
    simp only [unbindAll_eq]
    exact Graph.shape_setStatus ..
  exact h.congr hshape (by rw [hsession]) (by rw [hsession]) (by rw [hsession]) (by rw [hsession])

theorem bindOutputs (h : Upkept T k) (c : Cell) (output : CellOutput) :
    Upkept T (k.bindOutputs c output) := by
  obtain ⟨names, elements, heq, -⟩ := bindOutputs_eq k c output
  rw [heq]
  exact h.congr rfl rfl rfl rfl rfl

/-- A reset leaves nothing to hold. -/
theorem reset (h : Upkept T k) : Upkept T k.reset := by
  obtain ⟨published, heq⟩ := reset_eq k
  rw [heq]
  exact ⟨h.idle, .of_none rfl rfl rfl⟩

variable [HashFunction] {x : Executor κ σ}

/-! ## §2. Runs. -/

omit [HashFunction] in
/-- The cell begins, and loses what it held but its models. -/
theorem begun (h : Upkept T k) (c : Cell) : Upkept (T ++ [.began c.id]) (k.begun c) := by
  have hkept : Kept (fun a => (k.graph.setStatus c.id .running).contains a = true)
      (T ++ [.began c.id]) (k.session.beginCell c.id) :=
    (h.kept.beginCell c.id).mono fun a ha => by
      rw [Graph.contains_congr (Graph.shape_setStatus ..)]
      exact ha
  unfold Kernel.begun
  simp only [unbindAll_eq]
  exact ⟨h.idle, hkept.lose (.of_eq rfl rfl rfl)⟩

/-- A program that runs for a live cell sets up things for it, and at the end the cell loses the
models that were not bound again. -/
theorem perform {α : Type} {id : CellId} (h : Upkept T k) (hlive : k.graph.contains id = true)
    (hsince : Since T id fun _ => True) (p : Program κ σ α) :
    Upkept (T ++ (k.session.enter id .run).deedsOf p) (k.perform id p).2.2 := by
  obtain ⟨frame, hleave, -⟩ := Session.leave_run k.session id .run p
  have hrun := Session.advances_run (k.session.enter id .run) p
  have hby := Session.deedsOf_isBy (s := k.session.enter id .run) rfl p
  have hover : Kept (fun c => k.graph.contains c = true)
      (T ++ (k.session.enter id .run).deedsOf p)
      { ((k.session.enter id .run).run p).2 with frames := k.session.frames } :=
    h.kept.advance ⟨hrun.states, hrun.watches, hrun.models, hrun.observers⟩
      fun d hd => ⟨id, hby d hd, hlive, hsince⟩
  unfold Kernel.perform
  dsimp only
  rw [hleave]
  exact ⟨h.idle, hover.lose (Session.advances_finishCell ..)⟩

end Upkept

variable [HashFunction] {x : Executor κ σ}

/-- What a cell does for its holdings if it is run now; it only begins when it is served from the
cache. -/
def runDeeds (k : Kernel κ σ) (x : Executor κ σ) (c : Cell) (forced : Bool) : List (Deed κ) :=
  .began c.id ::
    match (k.begun c).serve? c forced ((k.begun c).identityOf? c) with
    | (some _, _) => []
    | (none, k₁) => (k₁.session.enter c.id .run).deedsOf (x.execute (k.requestOf c))

namespace Round

/-- What is done when a round comes to a cell. -/
def deeds (x : Executor κ σ) (forced : OrderedSet CellId) (r : Round κ σ) (id : CellId) :
    List (Deed κ) :=
  if r.kernel.session.aborted || (r.failedParent? id).isSome then [] else
  match r.kernel.graph.cell? id with
  | none => []
  | some c => r.kernel.runDeeds x c (forced.has id)

/-- What is done when a round comes to the given cells in turn. -/
def deedsOfAll (x : Executor κ σ) (forced : OrderedSet CellId) :
    Round κ σ → List CellId → List (Deed κ)
  | _, [] => []
  | r, id :: rest => r.deeds x forced id ++ deedsOfAll x forced (r.visit x forced id) rest

end Round

namespace Upkept

variable {forced : OrderedSet CellId} {r : Round κ σ}

/-- A run, whether it succeeds, fails or is served from the cache. -/
theorem runLive (h : Upkept T k) (hc : k.graph.cell? c.id = some c) (x : Executor κ σ)
    (forced : Bool) : Upkept (T ++ k.runDeeds x c forced) (k.runLive x c forced).2 := by
  have hbegun := h.begun c
  have hlive : (k.begun c).graph.contains c.id = true := by
    rw [Graph.contains_congr (begun_settled hc).shape]
    exact Graph.contains_of_cell? hc
  rw [runLive_eq]
  unfold runDeeds
  obtain ⟨cache, hserve⟩ := serve?_eq (k.begun c) c forced ((k.begun c).identityOf? c)
  generalize (k.begun c).serve? c forced ((k.begun c).identityOf? c) = served at hserve ⊢
  obtain ⟨found, k₁⟩ := served
  obtain rfl : k₁ = _ := hserve
  have hserved : Upkept (T ++ [.began c.id])
      ({ k.begun c with session := { (k.begun c).session with cache } } : Kernel κ σ) :=
    hbegun.congr rfl rfl rfl rfl rfl
  cases found with
  | some output =>
    exact (hserved.bindOutputs c output).congr (Graph.shape_setStatus ..) rfl rfl rfl rfl
  | none =>
    have hran := hserved.perform hlive (.began T c.id) (x.execute (k.requestOf c))
    rw [List.append_assoc] at hran
    dsimp only [execute]
    generalize Kernel.perform _ _ _ = performed at hran ⊢
    obtain ⟨result, frame, k₂⟩ := performed
    cases result with
    | ok output =>
      obtain ⟨cache', hkeep⟩ := keepResult_eq (k₂.bindOutputs c output) c.id
        ((k.begun c).identityOf? c) frame output
      dsimp only
      rw [hkeep]
      exact (hran.bindOutputs c output).congr (Graph.shape_setStatus ..) rfl rfl rfl rfl
    | error text => exact hran.failCell _ _ _

theorem runCell (h : Upkept T k) (x : Executor κ σ) (id : CellId) (forced : Bool) :
    Upkept (T ++ match k.graph.cell? id with
      | none => []
      | some c => k.runDeeds x c forced) (k.runCell x id forced).2 := by
  unfold Kernel.runCell
  cases hc : k.graph.cell? id with
  | none => exact (List.append_nil T).symm ▸ h
  | some c =>
    obtain rfl := Graph.cell?_id hc
    exact h.runLive hc x forced

/-- Coming to a cell, whether it is run or not. -/
theorem visit (h : Upkept T r.kernel) (x : Executor κ σ) (forced : OrderedSet CellId)
    (id : CellId) : Upkept (T ++ r.deeds x forced id) (r.visit x forced id).kernel := by
  rw [kernel_visit]
  unfold Round.deeds
  cases r.kernel.session.aborted with
  | true => exact (List.append_nil T).symm ▸ h.congr (Graph.shape_setStatus ..) rfl rfl rfl rfl
  | false =>
    cases r.failedParent? id with
    | some ancestor => exact (List.append_nil T).symm ▸ h.failCell _ _ _
    | none => exact h.runCell x id (forced.has id)

theorem visits (h : Upkept T r.kernel) (x : Executor κ σ) (forced : OrderedSet CellId)
    (ids : List CellId) :
    Upkept (T ++ r.deedsOfAll x forced ids) (ids.foldl (Round.visit x forced) r).kernel := by
  induction ids generalizing r T with
  | nil => exact (List.append_nil T).symm ▸ h
  | cons first rest ih =>
    rw [Round.deedsOfAll, ← List.append_assoc]
    exact ih (h.visit x forced first)

omit [HashFunction] in
/-- Before the first cell is come to, nothing is done. -/
theorem readied (h : Upkept T k) (roots : OrderedSet CellId) (report : RunReport) :
    Upkept T (k.readied roots report).kernel :=
  readied_keeps (fun _ id now e h => h.failCell id now e)
    (fun _ _ h => h.congr (Graph.shape_setStatus ..) rfl rfl rfl rfl) h roots report

/-- A round of runs, whether or not it is stopped. -/
theorem runOnce (h : Upkept T k) (hg : k.graph.WellFormed) (x : Executor κ σ)
    (roots forced : OrderedSet CellId) (report : RunReport) :
    Upkept (T ++ (k.readied roots {}).deedsOfAll x forced (k.graph.plan roots).order)
      (k.runOnce x roots forced report).2 := by
  rw [runOnce_report, runOnce_eq]
  have hvisited := (h.readied roots {}).visits x forced (k.graph.plan roots).order
  have hgv : (k.visitedAll x roots forced).graph.WellFormed :=
    (visitedAll_status hg x roots forced).1.wellFormed hg
  refine scheduleWrites ?_ hgv
  exact hvisited.congr rfl rfl rfl rfl rfl

end Upkept

/-! ## §3. Events and histories. -/

/-- What is done while a round runs. -/
def roundDeeds (k : Kernel κ σ) (x : Executor κ σ) (roots forced : OrderedSet CellId) :
    List (Deed κ) :=
  (k.readied roots {}).deedsOfAll x forced (k.graph.plan roots).order

/-- What is done when an event is applied: the observers of a model work for the cell that owns
it. -/
def eventDeeds (k : Kernel κ σ) (x : Executor κ σ) : Event → List (Deed κ)
  | .updateModel model patch =>
    match k.session.models.dispatch model with
    | .ok (owner, observers) =>
      Session.deedsOfObservers x patch observers (k.session.enter owner .callback)
    | .error _ => []
  | _ => []

/-- What is done when events are applied in turn. -/
def eventsDeeds (x : Executor κ σ) : Kernel κ σ → List Event → List (Deed κ)
  | _, [] => []
  | k, event :: rest => k.eventDeeds x event ++ eventsDeeds x (k.apply x event).2 rest

/-- What is done when the queued events are applied. -/
def drainDeeds (k : Kernel κ σ) (x : Executor κ σ) : List (Deed κ) :=
  eventsDeeds x { k with session.inbox := [] } (Event.coalesce k.session.inbox)

/-- What is done while events and writes are applied and the pending cells run, round after
round. -/
def roundsDeeds (x : Executor κ σ) : (rounds : Nat) → Kernel κ σ → List (Deed κ)
  | 0, _ => []
  | rounds + 1, k =>
    let ready := (k.drain x).2.scheduleWrites
    k.drainDeeds x ++
      if ready.pending.isEmpty then [] else
      let k' := (ready.clearPending.runOnce x ready.pending ready.forced {}).2
      ready.clearPending.roundDeeds x ready.pending ready.forced ++
        if k'.session.aborted then [] else roundsDeeds x rounds k'

/-- What is done while the kernel runs until nothing is pending. -/
def untilIdleDeeds (k : Kernel κ σ) (x : Executor κ σ) (rounds : Nat) : List (Deed κ) :=
  roundsDeeds x rounds { k with session.aborted := false }

namespace Upkept

omit [HashFunction] in
/-- When cells are only asked to run, it is enough to see to the session. -/
theorem asked (h : Upkept T k) (ha : Asked k k') (hframes : k'.session.frames = [])
    (hstep : k.session.Advances [] k'.session) : Upkept T k' :=
  ⟨hframes, (h.kept.lose hstep).mono fun c hc => by rwa [ha.graph]⟩

/-- The observers of a model set things up for the cell that owns it.  A cell that owns a model has
one bound directly, and so it is live. -/
theorem updateModel (h : Upkept T k) (hg : k.graph.WellFormed) (x : Executor κ σ) (model : ModelId)
    (patch : Json) : Upkept (T ++ k.eventDeeds x (.updateModel model patch))
      (k.orUnchanged (k.updateModel x model patch)).2 := by
  cases hfound : k.session.models.dispatch model with
  | error e =>
    have hnone : k.eventDeeds x (.updateModel model patch) = [] := by simp [eventDeeds, hfound]
    have hsame : k.updateModel x model patch = .error e := by
      simp [Kernel.updateModel, Session.dispatch, hfound, Except.map]
    rw [hnone, hsame, List.append_nil]
    exact h
  | ok found =>
    obtain ⟨owner, observers⟩ := found
    have hdeeds : k.eventDeeds x (.updateModel model patch) =
        Session.deedsOfObservers x patch observers (k.session.enter owner .callback) := by
      simp [eventDeeds, hfound]
    have howner : k.session.models.owner? model = some owner := by
      unfold ModelTable.dispatch at hfound
      split at hfound
      · rename_i cell hcell
        obtain ⟨rfl, -⟩ := Prod.mk.inj (Except.ok.inj hfound)
        exact hcell
      · cases hfound
    obtain ⟨direct, hdirect⟩ := ModelTable.exists_cell?_of_owner? howner
    have htold := Session.advances_runObservers x patch observers (k.session.enter owner .callback)
    have hby := Session.deedsOfObservers_isBy (s := k.session.enter owner .callback) rfl x patch
      observers
    rw [updateModel_eq x patch hfound, hdeeds, Session.leave_runObservers]
    refine scheduleWrites ⟨h.idle, h.kept.advance
      ⟨htold.states, htold.watches, htold.models, htold.observers⟩ fun d hd => ?_⟩ hg
    exact ⟨owner, hby d hd, h.kept.models direct owner hdirect⟩

theorem setState (h : Upkept T k) (hg : k.graph.WellFormed) (state : StateId) (value : Json) :
    Upkept T (k.orUnchanged (k.setState state value)).2 := by
  have hwritten := Session.advances_answer k.session (.writeState state value)
  have hframes := Session.answer_frames_nil h.idle (.writeState state value)
  have hnone : k.session.deed? (.writeState state value) = none := by
    simp [Session.deed?, Session.currentCell, h.idle]
  rw [hnone] at hwritten
  change k.session.Advances [] (k.session.writeState state value).2 at hwritten
  change (k.session.writeState state value).2.frames = [] at hframes
  unfold Kernel.setState
  cases hset : k.session.writeState state value with
  | mk result session =>
    rw [hset] at hwritten hframes
    cases result with
    | ok _ => exact (h.asked (.told k session k.published) hframes hwritten).scheduleWrites hg
    | error e => exact h

/-- Whatever is asked of a kernel. -/
theorem apply (h : Upkept T k) (hk : InOrder (fun _ => True) k) (x : Executor κ σ)
    (event : Event) : Upkept (T ++ k.eventDeeds x event) (k.apply x event).2 := by
  have hg := hk.wellFormed
  cases event with
  | updateModel model patch => exact h.updateModel hg x model patch
  | register specs =>
    have hedits : ReflTransGen (Edit fun _ => True) k (k.registerCells specs) :=
      registerCells_edits hk.toCoherent hk.waitFor fun _ _ => trivial
    exact (List.append_nil T).symm ▸ h.edits hk.toCoherent hedits
  | delete cell =>
    refine (List.append_nil T).symm ▸ (?_ : Upkept T (k.orUnchanged (k.deleteCell cell)).2)
    cases hdelete : k.deleteCell cell with
    | ok k' => exact h.edits hk.toCoherent (deleteCell_edits hk.toCoherent hk.waitFor hdelete)
    | error e => exact h
  | run cells =>
    refine (List.append_nil T).symm ▸ (?_ : Upkept T (k.runCells cells.toList).2)
    refine h.asked (.runCells k cells.toList) ?_ ?_ <;> rw [runCells_session]
    · exact h.idle
    · exact .refl _
  | setElement element value =>
    refine (List.append_nil T).symm ▸
      (?_ : Upkept T (k.orUnchanged (k.setElementValue element value)).2)
    unfold setElementValue
    cases k.session.elements.setValue element value with
    | ok set => exact h.congr rfl rfl rfl rfl rfl
    | error e => exact h
  | setState state value => exact (List.append_nil T).symm ▸ h.setState hg state value
  | watchTriggered watch => exact (List.append_nil T).symm ▸ h.congr rfl rfl rfl rfl rfl
  | complete request start => exact (List.append_nil T).symm ▸ h.congr rfl rfl rfl rfl rfl

theorem applyAll (h : Upkept T k) (hk : InOrder (fun _ => True) k) (x : Executor κ σ)
    (events : List Event) : Upkept (T ++ eventsDeeds x k events) (k.applyAll x events) := by
  induction events generalizing k T with
  | nil => exact (List.append_nil T).symm ▸ h
  | cons event rest ih =>
    rw [eventsDeeds, ← List.append_assoc]
    exact ih (h.apply hk x event) (hk.applyAll x [event])

/-- The queued events and writes are applied before a round. -/
theorem ready (h : Upkept T k) (hk : InOrder (fun _ => True) k) (x : Executor κ σ) :
    Upkept (T ++ k.drainDeeds x) (k.drain x).2.scheduleWrites := by
  have hinbox : Asked k { k with session.inbox := [] } := .told k _ _
  have hbegin : Upkept T { k with session.inbox := [] } := h.congr rfl rfl rfl rfl rfl
  exact (hbegin.applyAll (hk.asked hinbox) x (Event.coalesce k.session.inbox)).scheduleWrites
    ((hk.asked hinbox).applyAll x _).wellFormed

/-- Round after round, until nothing is pending or the run is stopped. -/
theorem runRounds {rounds : Nat} {report report' : RunReport} (h : Upkept T k)
    (hk : InOrder (fun _ => True) k)
    (hrun : Kernel.runRounds x rounds k report = some (report', k')) :
    Upkept (T ++ roundsDeeds x rounds k) k' := by
  induction rounds generalizing k T report with
  | zero => cases hrun
  | succ rounds ih =>
    unfold Kernel.runRounds at hrun
    dsimp only at hrun
    rw [roundsDeeds, ← List.append_assoc]
    have h₁ := h.ready hk x
    have hk₁ := hk.ready x
    generalize (k.drain x).2.scheduleWrites = k₁ at hrun h₁ hk₁ ⊢
    generalize T ++ k.drainDeeds x = T₁ at h₁ ⊢
    split at hrun
    · rename_i hnone
      obtain ⟨-, rfl⟩ := Prod.mk.inj (Option.some.inj hrun)
      rw [if_pos hnone, List.append_nil]
      exact h₁
    · rename_i hsome
      have hcleared : Upkept T₁ k₁.clearPending := h₁.congr rfl rfl rfl rfl rfl
      have hround := hcleared.runOnce hk₁.clearPending.wellFormed x k₁.pending k₁.forced {}
      rw [if_neg hsome]
      rw [runOnce_report] at hrun
      split at hrun
      · rename_i haborted
        obtain ⟨-, rfl⟩ := Prod.mk.inj (Option.some.inj hrun)
        dsimp only at haborted ⊢
        rw [if_pos haborted, List.append_nil]
        exact hround.congr rfl rfl rfl rfl rfl
      · rename_i haborted
        dsimp only at haborted ⊢
        rw [if_neg haborted, ← List.append_assoc]
        exact ih hround (hk₁.clearPending.round x k₁.pending k₁.forced {}) hrun

end Upkept

/-- The kernels that come about, each with what cells have done for their holdings so far.  The host
may run programs outside of all cells, through the handles that it holds, and it may do what it
likes to elements, cache, files and events. -/
inductive Attended (x : Executor κ σ) : Kernel κ σ → List (Deed κ) → Prop
  | start {config : Config} {disk : Disk} {clock : Nat} {own : σ} {k : Kernel κ σ} :
    Kernel.start config disk clock own = .ok k → Attended x k []
  | init {k : Kernel κ σ} {T : List (Deed κ)} (initial : List (String × Binding)) :
    Attended x k T → Attended x (k.init initial) T
  | reset {k : Kernel κ σ} {T : List (Deed κ)} : Attended x k T → Attended x k.reset T
  | event {k : Kernel κ σ} {T : List (Deed κ)} (event : Event) :
    Attended x k T → Attended x (k.apply x event).2 (T ++ k.eventDeeds x event)
  | host {k : Kernel κ σ} {T : List (Deed κ)} {α : Type} (p : Program κ σ α) :
    Attended x k T →
    Attended x { k with session := (k.session.run p).2 } (T ++ k.session.deedsOf p)
  | aside {k : Kernel κ σ} {T : List (Deed κ)} (s : Session κ σ) :
    Attended x k T → s.frames = k.session.frames → s.states = k.session.states →
    s.watches = k.session.watches → s.models = k.session.models →
    Attended x { k with session := s } T
  | untilIdle {k k' : Kernel κ σ} {T : List (Deed κ)} (rounds : Nat) (report : RunReport) :
    Attended x k T → k.runUntilIdle? x rounds = some (report, k') →
    Attended x k' (T ++ k.untilIdleDeeds x rounds)

namespace Attended

variable {x : Executor κ σ}

theorem reachable (h : Attended x k T) : Reachable x k := by
  induction h with
  | start hstart => exact .start hstart
  | init initial _ ih => exact ih.init initial
  | reset _ ih => exact ih.reset
  | event event _ ih => exact ih.apply event
  | host p _ ih => exact ih.host _
  | aside s _ _ _ _ _ ih => exact ih.host s
  | untilIdle rounds report _ hrun ih => exact ih.runUntilIdle? hrun

/-- **Nothing outlives its owner.**  Between two operations no activity is under way; who created a
state, watches a path, has a model bound to it or left an observer is a live cell that has begun to
run, and its states, watches and observers are noted among what it set up since it began the latest
time. -/
theorem upkept (h : Attended x k T) : Upkept T k := by
  induction h with
  | start hstart =>
    obtain ⟨-, cache, heq⟩ := start_eq hstart
    rw [heq]
    exact ⟨rfl, .of_none rfl rfl rfl⟩
  | init initial _ ih => exact ih.congr rfl rfl rfl rfl rfl
  | reset _ ih => exact ih.reset
  | event event h ih => exact ih.apply h.reachable.inOrder x event
  | @host k T α p _ ih =>
    have hnone := Session.deedsOf_outside ih.idle p
    have hrun := Session.advances_run k.session p
    rw [hnone] at hrun ⊢
    rw [List.append_nil]
    exact ih.asked (.told k _ k.published) (Session.run_frames_nil ih.idle p) hrun
  | aside s _ hframes hstates hwatches hmodels ih =>
    exact ih.congr rfl hframes (congrArg StateStore.slots hstates) hwatches hmodels
  | @untilIdle k k' T rounds report h hrun ih =>
    have hready : Asked k { k with session.aborted := false } := .told k _ _
    have hbegin : Upkept T { k with session.aborted := false } := ih.congr rfl rfl rfl rfl rfl
    exact hbegin.runRounds (h.reachable.inOrder.asked hready) hrun

end Attended

end Kernel

/-! ## §4. A lodger. -/

/-- A cell creates a state, watches a file, and binds a model that it observes.  Whenever the model
changes, the observer creates one more state and leaves one more observer. -/
def Executor.lodger : Executor Unit Unit where
  execute _ :=
    .ask (.createState .null) fun _ => .ask (.watch ⟨"notes.txt"⟩ .file) fun _ =>
    .ask (.bindModel ⟨"m"⟩) fun _ => .ask (.observeModel ⟨"m"⟩ ()) fun _ => .done (.ok {})
  observe _ _ :=
    .ask (.createState .null) fun _ => .ask (.observeModel ⟨"m"⟩ ()) fun _ => .done (.ok ())

namespace Kernel

/-- One cell without names, to be run. -/
def tenancy : Kernel Unit Unit :=
  ({ config := { cellCache := false }, session := { own := () } } : Kernel Unit Unit).registerCells
    [⟨⟨0⟩, "rent", .empty, .empty⟩]

set_option maxRecDepth 20000 in
/-- The cell has run, its model was changed, and it has run again: what the observer had set up is
gone, and all that is left dates from the second run. -/
theorem tenancy_upkept :
    let _ := Sha256.hashFunction
    ∃ k T, Attended .lodger k T ∧
      T = [.began ⟨0⟩, .created ⟨0⟩ ⟨0⟩, .watched ⟨0⟩ ⟨0⟩, .bound ⟨0⟩ ⟨"m"⟩, .observed ⟨0⟩ ⟨"m"⟩ (),
        .created ⟨0⟩ ⟨1⟩, .observed ⟨0⟩ ⟨"m"⟩ (),
        .began ⟨0⟩, .created ⟨0⟩ ⟨2⟩, .watched ⟨0⟩ ⟨1⟩, .bound ⟨0⟩ ⟨"m"⟩, .observed ⟨0⟩ ⟨"m"⟩ ()] ∧
      [⟨0⟩, ⟨1⟩, ⟨2⟩].map k.session.creator? = [none, none, some ⟨0⟩] ∧
      [⟨0⟩, ⟨1⟩].map k.session.watcher? = [none, some ⟨0⟩] ∧
      k.session.models.cell? ⟨"m"⟩ = some ⟨0⟩ ∧
      k.session.models.observersBy ⟨"m"⟩ ⟨0⟩ = [()] ∧ Upkept T k := by
  intro _
  let again : OrderedSet CellId := .ofList [⟨0⟩]
  let told : Event := .updateModel ⟨"m"⟩ .null
  have hstart : Kernel.start { cellCache := false } {} 0 () =
      .ok ({ config := { cellCache := false }, session := { own := () } } : Kernel Unit Unit) := rfl
  have hready : Attended .lodger tenancy [] := .event (.register _) (.start hstart)
  -- the facts of the whole history, one run after the other
  have hall : (tenancy.runUntilIdle? .lodger 2).bind (fun first =>
      let k₁ := (first.2.apply .lodger told).2
      let k₂ := (k₁.apply .lodger (.run again)).2
      (k₂.runUntilIdle? .lodger 2).map fun second =>
        (tenancy.untilIdleDeeds .lodger 2 ++ first.2.eventDeeds .lodger told ++
          k₁.eventDeeds .lodger (.run again) ++ k₂.untilIdleDeeds .lodger 2,
        [⟨0⟩, ⟨1⟩, ⟨2⟩].map second.2.session.creator?, [⟨0⟩, ⟨1⟩].map second.2.session.watcher?,
        second.2.session.models.cell? ⟨"m"⟩, second.2.session.models.observersBy ⟨"m"⟩ ⟨0⟩)) =
      some ([.began ⟨0⟩, .created ⟨0⟩ ⟨0⟩, .watched ⟨0⟩ ⟨0⟩, .bound ⟨0⟩ ⟨"m"⟩,
        .observed ⟨0⟩ ⟨"m"⟩ (), .created ⟨0⟩ ⟨1⟩, .observed ⟨0⟩ ⟨"m"⟩ (),
        .began ⟨0⟩, .created ⟨0⟩ ⟨2⟩, .watched ⟨0⟩ ⟨1⟩, .bound ⟨0⟩ ⟨"m"⟩,
        .observed ⟨0⟩ ⟨"m"⟩ ()], [none, none, some ⟨0⟩], [none, some ⟨0⟩], some ⟨0⟩, [()]) := by
    cbv
  obtain ⟨⟨report₁, k₀⟩, hfirst, hrest⟩ := Option.bind_eq_some_iff.1 hall
  obtain ⟨⟨report₂, k⟩, hsecond, hfacts⟩ := Option.map_eq_some_iff.1 hrest
  simp only [Prod.mk.injEq] at hfacts
  obtain ⟨hdeeds, hcreators, hwatchers, hcell, hobservers⟩ := hfacts
  have hattended := ((((hready.untilIdle 2 report₁ hfirst).event told).event (.run again)).untilIdle
    2 report₂ hsecond)
  rw [List.nil_append, hdeeds] at hattended
  exact ⟨k, _, hattended, rfl, hcreators, hwatchers, hcell, hobservers, hattended.upkept⟩

end Kernel

end Notebook
