/-
  Notebook.Proofs.Kernel.Elements — how the elements change under a kernel.

  Programs create elements, runs bind and unbind their names, events give them values, rounds
  collect what is out of reach, and a reset drops everything.  All of this goes through the
  operations of the registry (`ElementRegistry.Evolves`), so that what these keep holds of the
  elements of every kernel whose host keeps to them, too (`Managed`).

  Main results:
    * `Kernel.evolves_apply`, `Kernel.evolves_runOnce` — events and rounds evolve the elements,
    * `Kernel.Managed.keyed` — elements stand under their own identifiers.
-/
import Notebook.Proofs.Kernel.Naming

namespace Notebook

open Relation

/-! ## §1. Registries that evolve. -/

namespace ElementRegistry

variable {r r' r₁ : ElementRegistry}

/-- The one registry comes from the other by operations, and by dropping everything. -/
inductive Evolves (r : ElementRegistry) : ElementRegistry → Prop
  | refl : Evolves r r
  | perform {r' : ElementRegistry} (op : Operation) : Evolves r r' → Evolves r (r'.perform op)
  | drop {r' : ElementRegistry} : Evolves r r' → Evolves r {}

namespace Evolves

theorem trans (h : Evolves r r₁) (h' : Evolves r₁ r') : Evolves r r' := by
  induction h' with
  | refl => exact h
  | perform op _ ih => exact ih.perform op
  | drop _ ih => exact ih.drop

/-- One operation. -/
theorem single (op : Operation) : Evolves r (r.perform op) := refl.perform op

theorem of_eq (h : r' = r) : Evolves r r' := h ▸ refl

theorem register {spec : ElementSpec} {parent : Option ElementId} {lens : Lens}
    (h : r.register spec parent lens = .ok r') : Evolves r r' := by
  have hperform : r.perform (.register spec parent lens) = r' := by rw [ElementRegistry.perform, h]
  exact hperform ▸ single _

theorem setValue {id : ElementId} {v : Json} {answer : ElementId × Json}
    (h : r.setValue id v = .ok (answer, r')) : Evolves r r' := by
  have hperform : r.perform (.setValue id v) = r' := by rw [ElementRegistry.perform, h]
  exact hperform ▸ single _

theorem unbindAll (r : ElementRegistry) (names : List String) :
    Evolves r (names.foldl ElementRegistry.unbind r) := by
  induction names generalizing r with
  | nil => exact refl
  | cons name rest ih => exact (single (.unbind name)).trans (ih (r.unbind name))

/-- Elements stand under their own identifiers, whatever is done. -/
theorem keyed (h : Evolves r r') (hr : r.Keyed) : r'.Keyed := by
  induction h with
  | refl => exact hr
  | @perform r' op _ ih =>
    cases op with
    | register spec parent lens =>
      simp only [ElementRegistry.perform]
      split
      · exact ih.register ‹_›
      · exact ih
    | setValue id v =>
      simp only [ElementRegistry.perform]
      split
      · rename_i hset
        rw [(setValue_eq_ok_iff.1 hset).2]
        exact ih.congr (link?_writeThrough r' id v)
      · exact ih
    | bind name id => exact ih
    | unbind name => exact ih
    | collectGarbage => exact ih.collectGarbage
  | drop => exact Reached.empty.keyed

end Evolves

theorem Grows.evolves (h : Grows r r') : Evolves r r' := by
  induction h with
  | refl => exact .refl
  | tail _ hstep ih =>
    obtain ⟨spec, parent, lens, hregister⟩ := hstep
    exact ih.trans (.register hregister)

/-- Registries that histories reach have evolved. -/
theorem Reached.evolves (h : r.Reached) : Evolves {} r := by
  induction h with
  | empty => exact .refl
  | register _ hregister _ ih => exact ih.trans (.register hregister)
  | setValue _ hset ih => exact ih.trans (.setValue hset)
  | bind _ name id ih => exact ih.perform (.bind name id)
  | unbind _ name ih => exact ih.perform (.unbind name)
  | collectGarbage _ ih => exact ih.perform .collectGarbage

end ElementRegistry

open ElementRegistry (Evolves)

namespace Kernel

variable {κ σ : Type} {k k' : Kernel κ σ} {S : CellSpec → Prop}

/-! ## §2. Edits and events. -/

theorem evolves_unbindAll (k : Kernel κ σ) (names : List String) :
    k.session.elements.Evolves (k.unbindAll names).session.elements := by
  rw [unbindAll_eq]
  exact .unbindAll k.session.elements names

theorem evolves_failCell (k : Kernel κ σ) (id : CellId) (now : CellStatus) (e : CellError) :
    k.session.elements.Evolves (k.failCell id now e).session.elements := by
  unfold failCell
  exact evolves_unbindAll k _

theorem evolves_bindOutputs (k : Kernel κ σ) (c : Cell) (output : CellOutput) :
    k.session.elements.Evolves (k.bindOutputs c output).session.elements := by
  unfold bindOutputs
  induction output.bindings.entries generalizing k with
  | nil => exact .refl
  | cons entry rest ih =>
    obtain ⟨name, b⟩ := entry
    rw [List.foldl_cons]
    refine Evolves.trans ?_ (ih _)
    dsimp only
    split
    · cases b with
      | element id => exact .single (.bind name id)
      | _ => exact .refl
    · exact .refl

/-- An edit unbinds names. -/
theorem evolves_edit (h : Edit S k k') : k.session.elements.Evolves k'.session.elements := by
  cases h with
  | removed h =>
    obtain ⟨cache, hsession⟩ := h.tables
    rw [hsession]
    exact .unbindAll _ _
  | noted h => exact .of_eq (by rw [h.session])
  | registered h =>
    rw [h.tables]
    exact .unbindAll _ _

theorem evolves_edits (h : ReflTransGen (Edit S) k k') :
    k.session.elements.Evolves k'.session.elements := by
  induction h with
  | refl => exact .refl
  | tail _ hstep ih => exact ih.trans (evolves_edit hstep)

variable [HashFunction]

/-- **Events evolve the elements.** -/
theorem evolves_apply (hk : InOrder (fun _ => True) k) (x : Executor κ σ) (event : Event) :
    k.session.elements.Evolves (k.apply x event).2.session.elements := by
  cases event with
  | register specs =>
    have hedits : ReflTransGen (Edit fun _ => True) k (k.registerCells specs) :=
      registerCells_edits hk.toCoherent hk.waitFor fun _ _ => trivial
    exact evolves_edits hedits
  | delete cell =>
    show k.session.elements.Evolves (k.orUnchanged (k.deleteCell cell)).2.session.elements
    cases hdelete : k.deleteCell cell with
    | ok k' => exact evolves_edits (deleteCell_edits hk.toCoherent hk.waitFor hdelete)
    | error e => exact .refl
  | run cells => exact .of_eq (by rw [Kernel.apply, runCells_session])
  | setElement element value =>
    show k.session.elements.Evolves
      (k.orUnchanged (k.setElementValue element value)).2.session.elements
    unfold setElementValue
    cases hset : k.session.elements.setValue element value with
    | ok set => exact .setValue hset
    | error e => exact .refl
  | updateModel model patch =>
    show k.session.elements.Evolves (k.orUnchanged (k.updateModel x model patch)).2.session.elements
    unfold updateModel
    cases htold : k.session.dispatch x model patch with
    | ok told =>
      obtain ⟨owner, session⟩ := told
      dsimp only [Except.map, orUnchanged]
      rw [scheduleWrites_session]
      have htold : k.session.elements.Evolves session.elements :=
        (Session.grows_dispatch htold).evolves
      exact htold
    | error e => exact .refl
  | setState state value =>
    show k.session.elements.Evolves (k.orUnchanged (k.setState state value)).2.session.elements
    unfold setState
    have hwritten := (Session.grows_answer k.session (.writeState state value)).evolves
    change k.session.elements.Evolves (k.session.writeState state value).2.elements at hwritten
    generalize k.session.writeState state value = written at hwritten ⊢
    obtain ⟨result, session⟩ := written
    cases result with
    | ok _ =>
      dsimp only [orUnchanged]
      rw [scheduleWrites_session]
      exact hwritten
    | error e => exact .refl
  | watchTriggered watch => exact .refl
  | complete request start => exact .refl

/-! ## §3. Rounds. -/

theorem evolves_runLive (k : Kernel κ σ) (x : Executor κ σ) (c : Cell) (forced : Bool) :
    k.session.elements.Evolves (k.runLive x c forced).2.session.elements := by
  have hbegun : k.session.elements.Evolves (k.begun c).session.elements := by
    unfold Kernel.begun
    exact evolves_unbindAll
      { k.setStatus c.id .running with errors := k.errors.erase c.id } c.defs.toList
  rw [runLive_eq]
  obtain ⟨cache, hserve⟩ := serve?_eq (k.begun c) c forced ((k.begun c).identityOf? c)
  generalize (k.begun c).serve? c forced ((k.begun c).identityOf? c) = served at hserve ⊢
  obtain ⟨found, k₁⟩ := served
  change k₁ = _ at hserve
  have hserved : k.session.elements.Evolves k₁.session.elements := by
    rw [hserve]
    exact hbegun
  cases found with
  | some output => exact hserved.trans (evolves_bindOutputs k₁ c output)
  | none =>
    have hperformed := hserved.trans (grows_perform k₁ c.id (x.execute (k.requestOf c))).evolves
    dsimp only [execute]
    generalize perform _ _ _ = performed at hperformed ⊢
    obtain ⟨result, frame, k₂⟩ := performed
    cases result with
    | ok output =>
      obtain ⟨cache', hkeep⟩ := keepResult_eq (k₂.bindOutputs c output) c.id
        ((k.begun c).identityOf? c) frame output
      dsimp only
      rw [hkeep]
      exact hperformed.trans (evolves_bindOutputs k₂ c output)
    | error text => exact hperformed.trans (evolves_failCell k₂ c.id _ _)

theorem evolves_runCell (k : Kernel κ σ) (x : Executor κ σ) (id : CellId) (forced : Bool) :
    k.session.elements.Evolves (k.runCell x id forced).2.session.elements := by
  unfold Kernel.runCell
  split
  · exact evolves_runLive k x _ _
  · exact .refl

/-- **Rounds evolve the elements.** -/
theorem evolves_runOnce (k : Kernel κ σ) (x : Executor κ σ) (roots forced : OrderedSet CellId)
    (report : RunReport) :
    k.session.elements.Evolves (k.runOnce x roots forced report).2.session.elements := by
  let P (k' : Kernel κ σ) : Prop := k.session.elements.Evolves k'.session.elements
  have hready : P (k.readied roots {}).kernel :=
    readied_keeps (P := P) (fun k' _ _ _ h => h.trans (evolves_failCell k' _ _ _))
      (fun _ _ h => h) .refl roots {}
  have hvisited : P (k.visitedAll x roots forced) :=
    visits_keep (P := P) (fun _ _ _ h => h)
      (fun k' _ _ _ _ h => h.trans (evolves_failCell k' _ _ _))
      (fun k' _ _ _ h => h.trans (evolves_runCell k' x _ _)) forced hready
  rw [runOnce_report, runOnce_eq]
  dsimp only
  rw [scheduleWrites_session]
  exact hvisited.trans (.single .collectGarbage)

/-! ## §4. Kernels whose host keeps to the operations. -/

/-- The kernels that come about when cells are run by `x`, while whoever hosts the kernel does what
it likes to the session, but changes elements through the operations of the registry. -/
inductive Managed (x : Executor κ σ) : Kernel κ σ → Prop
  | start {config : Config} {disk : Disk} {clock : Nat} {own : σ} {k : Kernel κ σ} :
    Kernel.start config disk clock own = .ok k → Managed x k
  | init {k : Kernel κ σ} (initial : List (String × Binding)) :
    Managed x k → Managed x (k.init initial)
  | reset {k : Kernel κ σ} : Managed x k → Managed x k.reset
  | apply {k : Kernel κ σ} (event : Event) : Managed x k → Managed x (k.apply x event).2
  | scheduleWrites {k : Kernel κ σ} : Managed x k → Managed x k.scheduleWrites
  | clearPending {k : Kernel κ σ} : Managed x k → Managed x k.clearPending
  | round {k : Kernel κ σ} (roots forced : OrderedSet CellId) (report : RunReport) :
    Managed x k → Managed x (k.runOnce x roots forced report).2
  | host {k : Kernel κ σ} (s : Session κ σ) :
    k.session.elements.Evolves s.elements → Managed x k → Managed x { k with session := s }

namespace Managed

variable {x : Executor κ σ}

theorem reachable (h : Managed x k) : Reachable x k := by
  induction h with
  | start hstart => exact .start hstart
  | init initial _ ih => exact ih.init initial
  | reset _ ih => exact ih.reset
  | apply event _ ih => exact ih.apply event
  | scheduleWrites _ ih => exact ih.scheduleWrites
  | clearPending _ ih => exact ih.clearPending
  | round roots forced report _ ih => exact ih.round roots forced report
  | host s _ _ ih => exact ih.host s

/-- All elements have come about by operations. -/
theorem evolves (h : Managed x k) : Evolves {} k.session.elements := by
  induction h with
  | start hstart =>
    obtain ⟨-, cache, heq⟩ := start_eq hstart
    rw [heq]
    exact .refl
  | init initial _ ih => exact ih
  | @reset k _ ih =>
    obtain ⟨published, heq⟩ := reset_eq k
    rw [heq]
    exact ih.drop
  | apply event hk ih => exact ih.trans (evolves_apply hk.reachable.inOrder x event)
  | scheduleWrites _ ih =>
    rw [scheduleWrites_session]
    exact ih
  | clearPending _ ih => exact ih
  | round roots forced report _ ih => exact ih.trans (evolves_runOnce _ x roots forced report)
  | host s hevolves _ ih => exact ih.trans hevolves

/-- A whole run stays among them. -/
theorem runUntilIdle? (h : Managed x k) {rounds : Nat} {report : RunReport}
    (hrun : k.runUntilIdle? x rounds = some (report, k')) : Managed x k' :=
  runUntilIdle?_keeps (fun _ _ _ h => h.host _ .refl) (fun _ event h => h.apply event)
    (fun _ h => h.scheduleWrites) (fun _ h => h.clearPending)
    (fun _ roots forced report h => h.round roots forced report) h hrun

/-- **Elements stand under their own identifiers.** -/
theorem keyed (h : Managed x k) : k.session.elements.Keyed :=
  h.evolves.keyed ElementRegistry.Reached.empty.keyed

end Managed

end Kernel

end Notebook
