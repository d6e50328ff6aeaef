/-
  Notebook.Proofs.Kernel.Twin — kernels that differ only behind the notebook.

  Twins have the same cells, names, errors, parked registrations and requests; their settings, their
  sessions and what they have published may differ.  Nothing that is asked of a kernel looks at
  those before a program runs, so that twins stay twins through edits, requests, and whatever
  becomes of a cell besides running it.

  Main results:
    * `Twin.registerCells` / `Twin.deleteCell` / `Twin.runCells` — edits and requests,
    * `Twin.failCell` / `Twin.begun` / `Twin.succeed` — what becomes of a cell,
    * `Settled.twin` — a cell settles in a twin as it does in the kernel.
-/
import Notebook.Proofs.Kernel.Settle

namespace Notebook.Kernel

variable {κ σ : Type} {k k' k₁ : Kernel κ σ}

/-! ## §1. Twins. -/

/-- Two kernels with the same cells, names, errors, parked registrations and requests. -/
structure Twin (k k' : Kernel κ σ) : Prop where
  graph : k'.graph = k.graph
  names : k'.names = k.names
  parked : k'.parked = k.parked
  turns : k'.turns = k.turns
  errors : k'.errors = k.errors
  pending : k'.pending = k.pending
  forced : k'.forced = k.forced

namespace Twin

/-- Settings, session and messages make no difference. -/
theorem behind (k : Kernel κ σ) (config : Config) (session : Session κ σ)
    (published : List Message) : Twin k { k with config, session, published } :=
  ⟨rfl, rfl, rfl, rfl, rfl, rfl, rfl⟩

theorem withSession (k : Kernel κ σ) (session : Session κ σ) : Twin k { k with session } :=
  behind k k.config session k.published

theorem refl (k : Kernel κ σ) : Twin k k := behind k k.config k.session k.published

theorem symm (h : Twin k k') : Twin k' k :=
  ⟨h.graph.symm, h.names.symm, h.parked.symm, h.turns.symm, h.errors.symm, h.pending.symm,
    h.forced.symm⟩

theorem trans (h : Twin k k₁) (h' : Twin k₁ k') : Twin k k' :=
  ⟨h'.graph.trans h.graph, h'.names.trans h.names, h'.parked.trans h.parked,
    h'.turns.trans h.turns, h'.errors.trans h.errors, h'.pending.trans h.pending,
    h'.forced.trans h.forced⟩

/-- They are all that can make a difference. -/
theorem exists_eq (h : Twin k k') :
    ∃ config session published, k' = { k with config, session, published } := by
  obtain ⟨config, graph, names, session, parked, turns, errors, pending, forced, published⟩ := k'
  obtain ⟨rfl, rfl, rfl, rfl, rfl, rfl, rfl⟩ := h
  exact ⟨config, session, published, rfl⟩

/-! ## §2. Small steps. -/

theorem setStatus (h : Twin k k') (id : CellId) (now : CellStatus) :
    Twin (k.setStatus id now) (k'.setStatus id now) := by
  obtain ⟨config, session, published, rfl⟩ := h.exists_eq
  exact ⟨rfl, rfl, rfl, rfl, rfl, rfl, rfl⟩

theorem publish (h : Twin k k') (m m' : Message) : Twin (k.publish m) (k'.publish m') := by
  obtain ⟨config, session, published, rfl⟩ := h.exists_eq
  exact ⟨rfl, rfl, rfl, rfl, rfl, rfl, rfl⟩

theorem unschedule (h : Twin k k') (id : CellId) : Twin (k.unschedule id) (k'.unschedule id) := by
  obtain ⟨config, session, published, rfl⟩ := h.exists_eq
  exact ⟨rfl, rfl, rfl, rfl, rfl, rfl, rfl⟩

theorem editErrors (h : Twin k k') (edit : Table CellId CellError → Table CellId CellError) :
    Twin { k with errors := edit k.errors } { k' with errors := edit k'.errors } :=
  ⟨h.graph, h.names, h.parked, h.turns, congrArg edit h.errors, h.pending, h.forced⟩

theorem clearPending (h : Twin k k') : Twin k.clearPending k'.clearPending :=
  ⟨h.graph, h.names, h.parked, h.turns, h.errors, rfl, rfl⟩

theorem unbindAll (h : Twin k k') (names : List String) :
    Twin (k.unbindAll names) (k'.unbindAll names) := by
  obtain ⟨config, session, published, rfl⟩ := h.exists_eq
  rw [unbindAll_eq, unbindAll_eq]
  exact ⟨rfl, rfl, rfl, rfl, rfl, rfl, rfl⟩

theorem bind (h : Twin k k') (name : String) (b : Binding) :
    Twin (k.bind name b) (k'.bind name b) := by
  obtain ⟨config, session, published, rfl⟩ := h.exists_eq
  cases b <;> exact ⟨rfl, rfl, rfl, rfl, rfl, rfl, rfl⟩

/-- Of an output only the bindings are bound. -/
theorem bindOutputs (h : Twin k k') (c : Cell) {o o' : CellOutput}
    (hbindings : o'.bindings = o.bindings) : Twin (k.bindOutputs c o) (k'.bindOutputs c o') := by
  unfold Kernel.bindOutputs
  rw [hbindings]
  refine List.foldl_rel h fun e _ _ _ h => ?_
  dsimp only
  split
  · exact h.bind e.1 e.2
  · exact h

theorem markDangling (h : Twin k k') (id : CellId) :
    Twin (k.markDangling id) (k'.markDangling id) := by
  unfold Kernel.markDangling
  rw [h.graph]
  dsimp only
  split
  · exact h.setStatus id .stale
  · exact (h.publish _ _).setStatus id .stale

/-! ## §3. Edits. -/

theorem removeFromGraph (h : Twin k k') (id : CellId) :
    Twin (k.removeFromGraph id) (k'.removeFromGraph id) := by
  unfold Kernel.removeFromGraph
  rw [h.graph]
  cases k.graph.cell? id with
  | none => exact h
  | some c =>
    have hremoved : Twin { k with graph := k.graph.unregister id }
        { k' with graph := k.graph.unregister id } :=
      ⟨rfl, h.names, h.parked, h.turns, h.errors, h.pending, h.forced⟩
    have hunbound := hremoved.unbindAll c.defs.toList
    refine List.foldl_rel ?_ fun a _ _ _ h => h.markDangling a
    exact ⟨hunbound.graph, hunbound.names, hunbound.parked, hunbound.turns, hunbound.errors,
      hunbound.pending, hunbound.forced⟩

theorem park (h : Twin k k') (spec : CellSpec) (conflict : Graph.Conflict) :
    Twin (k.park spec conflict) (k'.park spec conflict) := by
  have hremoved := h.removeFromGraph spec.id
  unfold Kernel.park
  dsimp only
  generalize k.removeFromGraph spec.id = a at hremoved ⊢
  obtain ⟨config, session, published, heq⟩ := hremoved.exists_eq
  rw [heq]
  exact ⟨rfl, rfl, rfl, rfl, rfl, rfl, rfl⟩

theorem accept (h : Twin k k') (id : CellId) (g : Graph) :
    Twin (k.accept id g) (k'.accept id g) := by
  obtain ⟨config, session, published, rfl⟩ := h.exists_eq
  exact ⟨rfl, rfl, rfl, rfl, rfl, rfl, rfl⟩

theorem retry (h : Twin k k') (id : CellId) : Twin (k.retry id) (k'.retry id) := by
  unfold Kernel.retry
  rw [h.parked, h.graph]
  split
  · exact h
  · split
    · exact h.accept id _
    · exact h

theorem retryParked (h : Twin k k') : Twin k.retryParked k'.retryParked := by
  unfold Kernel.retryParked parkedInTurn
  rw [h.parked]
  exact List.foldl_rel h fun id _ _ _ h => h.retry id

theorem registerOne (h : Twin k k') (spec : CellSpec) :
    Twin (k.registerOne spec) (k'.registerOne spec) := by
  have hunchanged : k'.isUnchanged spec = k.isUnchanged spec := by
    unfold isUnchanged
    rw [h.parked, h.graph]
  unfold Kernel.registerOne
  rw [hunchanged, h.graph]
  split
  · exact h
  · split
    · exact h.park spec _
    · rename_i g _
      have haccepted := (h.accept spec.id g).unbindAll
        ((((k.graph.cell? spec.id).map Cell.defs).getD .empty).diff spec.defs).toList
      dsimp only
      rw [haccepted.graph]
      exact List.foldl_rel haccepted fun a _ _ _ h => h.markDangling a

/-- Twins stay twins when cells are registered. -/
theorem registerCells (h : Twin k k') (specs : List CellSpec) :
    Twin (k.registerCells specs) (k'.registerCells specs) :=
  retryParked (List.foldl_rel h fun spec _ _ _ h => h.registerOne spec)

/-- They stay twins when a cell is deleted. -/
theorem deleteCell (h : Twin k k') (id : CellId) :
    Twin (k.orUnchanged (k.deleteCell id)).2 (k'.orUnchanged (k'.deleteCell id)).2 := by
  have hremoved := h.removeFromGraph id
  obtain ⟨config, session, published, rfl⟩ := h.exists_eq
  unfold Kernel.deleteCell
  dsimp only
  split
  · exact h
  · refine Twin.retryParked (Twin.publish (Twin.unschedule ?_ id) _ _)
    split
    · exact ⟨rfl, rfl, rfl, rfl, rfl, rfl, rfl⟩
    · exact hremoved.editErrors fun errors => errors.erase id

/-- They stay twins when cells are asked to be run. -/
theorem runCells (h : Twin k k') (ids : List CellId) :
    Twin (k.runCells ids).2 (k'.runCells ids).2 := by
  induction ids generalizing k k' with
  | nil => exact h
  | cons id rest ih =>
    unfold Kernel.runCells
    rw [h.graph, h.parked]
    split
    · obtain ⟨config, session, published, rfl⟩ := h.exists_eq
      exact ih ⟨rfl, rfl, rfl, rfl, rfl, rfl, rfl⟩
    · split
      · exact ih h
      · exact h

/-! ## §4. What becomes of a cell. -/

theorem failCell (h : Twin k k') (id : CellId) (now : CellStatus) (e : CellError) :
    Twin (k.failCell id now e) (k'.failCell id now e) := by
  unfold Kernel.failCell
  rw [h.graph]
  have hdown := (h.unbindAll (((k.graph.cell? id).map fun c => c.defs.toList).getD [])).setStatus
    id now
  exact (hdown.editErrors fun errors => errors.insert id e).publish _ _

theorem begun (h : Twin k k') (c : Cell) : Twin (k.begun c) (k'.begun c) := by
  have hcleared := (h.setStatus c.id .running).editErrors fun errors => errors.erase c.id
  have hunbound := hcleared.unbindAll c.defs.toList
  exact ⟨hunbound.graph, hunbound.names, hunbound.parked, hunbound.turns, hunbound.errors,
    hunbound.pending, hunbound.forced⟩

theorem succeed (h : Twin k k') (c : Cell) (o o' : CellOutput) (cached cached' : Bool) :
    Twin (k.succeed c o cached) (k'.succeed c o' cached') :=
  (h.setStatus c.id .idle).publish _ _

theorem inputs (h : Twin k k') (c : Cell) : k'.inputs c = k.inputs c := by
  unfold Kernel.inputs
  rw [h.names]

theorem missing (h : Twin k k') (c : Cell) : k'.missing c = k.missing c := by
  unfold Kernel.missing
  rw [h.names, h.graph]

end Twin

/-- A cell settles in a twin with the same settings as it does in the kernel. -/
theorem Settled.twin {c : Cell} {now : CellStatus} {e : Option CellError}
    {outputs : Table String Binding} (h : Settled k k₁ c now e outputs) (htwin : Twin k₁ k')
    (hconfig : k'.config = k₁.config) : Settled k k' c now e outputs where
  shape := htwin.graph ▸ h.shape
  config := hconfig.trans h.config
  parked := htwin.parked.trans h.parked
  turns := htwin.turns.trans h.turns
  pending := htwin.pending.trans h.pending
  forced := htwin.forced.trans h.forced
  status := htwin.graph ▸ h.status
  errors := htwin.errors ▸ h.errors
  names := htwin.names ▸ h.names

end Notebook.Kernel
