/-
  Notebook.Proofs.Kernel.Rejected — what an event leaves behind when it is rejected.

  An event is carried out in steps, and what is done stays done when a later step fails.  Read step
  by step (`stepsOf`), an event looks at what it names before it changes anything, and so it leaves
  nothing behind when that is not known.  A request to run several cells looks at them one after
  another: the live cells before the first unknown one are queued when the request is rejected.

  Main results:
    * `stepsOf_on` — between activities the steps of an event come to what `apply` does,
    * `runCells_eq` — what a request to run queues, rejected or not,
    * `apply_rejected` — a rejected event changes nothing, unless it is such a request.
-/
import Notebook.Proofs.Kernel.Bookkeeping
import Notebook.Proofs.Kernel.Containment

namespace Notebook

namespace Kernel

variable {κ σ : Type} {k : Kernel κ σ} {id : CellId}

/-! ## §1. Events in steps. -/

/-- Something done to a kernel in steps.  What is done stays done when a later step fails. -/
abbrev Procedure (κ σ : Type) := ExceptT Error (StateM (Kernel κ σ))

namespace Procedure

/-- What a procedure answers, and the kernel that it leaves. -/
def on {α : Type} (p : Procedure κ σ α) (k : Kernel κ σ) : Except Error α × Kernel κ σ := p.run k

def deleteCell (id : CellId) : Procedure κ σ Unit := do
  let k ← get
  modify fun k => { k with parked := k.parked.erase id }
  unless k.parked.contains id do
    unless k.graph.contains id do throw (.cellNotFound id)
    modify fun k => k.removeFromGraph id
  modify fun k => { k with errors := k.errors.erase id }
  modify fun k => k.unschedule id
  modify fun k => k.publish (.deleted id)
  modify fun k => k.retryParked

def runCells : List CellId → Procedure κ σ Unit
  | [] => return
  | id :: rest => do
    let k ← get
    if k.graph.contains id then
      modify fun k => { k with pending := k.pending.add id }
      modify fun k => { k with forced := k.forced.add id }
    else
      unless k.parked.contains id do throw (.cellNotFound id)
    runCells rest

def setElementValue (element : ElementId) (value : Json) : Procedure κ σ Unit := do
  let k ← get
  let (root, patch) ← k.session.elements.resolve element value
  modify fun k => { k with session.elements := k.session.elements.writeThrough element value }
  modify fun k => k.publish (.elementValue root patch)
  modify fun k =>
    let names := k.session.elements.namesOf root ++ k.session.elements.namesOf element
    k.schedule (k.graph.readersOf names).toList

def setState (state : StateId) (value : Json) : Procedure κ σ Unit := do
  let k ← get
  -- the effect is taken down before the state is looked up
  let (written, session) := k.session.writeState state value
  modify fun k => { k with session }
  written
  modify scheduleWrites

variable [HashFunction]

def updateModel (x : Executor κ σ) (model : ModelId) (patch : Json) : Procedure κ σ Unit := do
  let k ← get
  let (owner, observers) ← k.session.models.dispatch model
  modify fun k => { k with session := k.session.enter owner .callback }
  modify fun k => { k with session := k.session.runObservers x patch observers }
  modify fun k => { k with session := k.session.leave.2 }
  modify fun k => k.schedule ((k.readersWhere (Binding.isModel model)).remove owner).toList
  modify scheduleWrites

end Procedure

/-- The steps in which an event is carried out. -/
def stepsOf [HashFunction] (x : Executor κ σ) : Event → Procedure κ σ Unit
  | .register specs => modify fun k => k.registerCells specs
  | .delete id => Procedure.deleteCell id
  | .run cells => Procedure.runCells cells.toList
  | .setElement element value => Procedure.setElementValue element value
  | .updateModel model patch => Procedure.updateModel x model patch
  | .setState state value => Procedure.setState state value
  | .watchTriggered watch => modify fun k => k.watchTriggered watch
  | .complete request start => modify fun k => k.complete request start

/-! ## §2. The steps come to what is done at once. -/

namespace Procedure

variable {α β : Type}

@[simp] theorem on_pure (a : α) (k : Kernel κ σ) :
    (pure a : Procedure κ σ α).on k = (.ok a, k) := rfl

@[simp] theorem on_throw (e : Error) (k : Kernel κ σ) :
    (throw e : Procedure κ σ α).on k = (.error e, k) := rfl

@[simp] theorem on_get (k : Kernel κ σ) :
    (get : Procedure κ σ (Kernel κ σ)).on k = (.ok k, k) := rfl

@[simp] theorem on_modify (f : Kernel κ σ → Kernel κ σ) (k : Kernel κ σ) :
    (modify f : Procedure κ σ Unit).on k = (.ok (), f k) := rfl

/-- A check that does not touch the kernel. -/
@[simp] theorem on_lift (checked : Except Error α) (k : Kernel κ σ) :
    (liftM checked : Procedure κ σ α).on k = (checked, k) := rfl

/-- What fails ends the procedure. -/
@[simp] theorem on_bind (p : Procedure κ σ α) (next : α → Procedure κ σ β) (k : Kernel κ σ) :
    (p >>= next).on k = match p.on k with
      | (.ok a, k) => (next a).on k
      | (.error e, k) => (.error e, k) := by
  have hrun : (p >>= next).on k = (match p.on k with
      | (answer, k) => ExceptT.bindCont next answer k : Except Error β × Kernel κ σ) := rfl
  rw [hrun]
  obtain ⟨answer, k'⟩ := p.on k
  cases answer <;> rfl

end Procedure

theorem deleteCell_on (k : Kernel κ σ) (id : CellId) :
    (Procedure.deleteCell id).on k = k.orUnchanged (k.deleteCell id) := by
  unfold Procedure.deleteCell Kernel.deleteCell
  cases hparked : k.parked.contains id with
  | true =>
    simp only [Procedure.on_bind, Procedure.on_get, Procedure.on_modify, hparked]
    rfl
  | false =>
    -- what is not parked is not taken out either
    have herase : { k with parked := k.parked.erase id } = k := by
      have hsame : k.parked.erase id = k.parked := by
        refine Table.ext_get? fun a => ?_
        rw [Table.get?_erase]
        split
        · rename_i heq
          rw [heq]
          exact (Option.not_isSome_iff_eq_none.1 (by simpa [Table.contains] using hparked)).symm
        · rfl
      rw [hsame]
    cases hlive : k.graph.contains id <;>
      simp [hparked, hlive, herase, orUnchanged]

theorem setElementValue_on (k : Kernel κ σ) (element : ElementId) (value : Json) :
    (Procedure.setElementValue element value).on k =
      k.orUnchanged (k.setElementValue element value) := by
  unfold Procedure.setElementValue Kernel.setElementValue ElementRegistry.setValue
  simp only [Procedure.on_bind, Procedure.on_get, Procedure.on_lift]
  cases k.session.elements.resolve element value <;> rfl

theorem runCells_on (k : Kernel κ σ) (ids : List CellId) :
    (Procedure.runCells ids).on k = k.runCells ids := by
  induction ids generalizing k with
  | nil => rfl
  | cons id rest ih =>
    unfold Procedure.runCells Kernel.runCells
    cases hlive : k.graph.contains id with
    | true => simp [hlive, ih]
    | false => cases hparked : k.parked.contains id <;> simp [hlive, hparked, ih]

theorem setState_on (hframes : k.session.frames = []) (state : StateId) (value : Json) :
    (Procedure.setState state value).on k = k.orUnchanged (k.setState state value) := by
  unfold Procedure.setState Kernel.setState Session.writeState
  cases hset : k.session.states.set state value k.session.origin with
  | ok states => simp [hset, orUnchanged]
  | error e =>
    have hrecord : k.session.record (.writeState state) = k.session := by
      unfold Session.record Session.withFrame
      rw [hframes]
    simp [hset, orUnchanged, hrecord]

section

variable [HashFunction]

theorem updateModel_on (k : Kernel κ σ) (x : Executor κ σ) (model : ModelId) (patch : Json) :
    (Procedure.updateModel x model patch).on k = k.orUnchanged (k.updateModel x model patch) := by
  unfold Procedure.updateModel Kernel.updateModel Session.dispatch
  simp only [Procedure.on_bind, Procedure.on_get, Procedure.on_lift]
  cases k.session.models.dispatch model <;> rfl

/-- Between activities the steps of an event come to what is done at once. -/
theorem stepsOf_on (hframes : k.session.frames = []) (x : Executor κ σ) (event : Event) :
    (stepsOf x event).on k = k.apply x event := by
  cases event with
  | register specs => rfl
  | delete id => exact deleteCell_on k id
  | run cells => exact runCells_on k cells.toList
  | setElement element value => exact setElementValue_on k element value
  | updateModel model patch => exact updateModel_on k x model patch
  | setState state value => exact setState_on hframes state value
  | watchTriggered watch => rfl
  | complete request start => rfl

end

/-! ## §3. Requests to run. -/

/-- Whether a cell is live or parked. -/
def knows (k : Kernel κ σ) (id : CellId) : Bool := k.graph.contains id || k.parked.contains id

/-- The cells that a request to run queues: the live ones before the first unknown one. -/
def queuedBy (k : Kernel κ σ) (ids : List CellId) : List CellId :=
  (ids.takeWhile k.knows).filter k.graph.contains

theorem mem_queuedBy {ids : List CellId} : id ∈ k.queuedBy ids ↔
    id ∈ ids.takeWhile k.knows ∧ k.graph.contains id = true :=
  List.mem_filter

/-- **What a request to run queues**, whether it is rejected in the end or not. -/
theorem runCells_eq (k : Kernel κ σ) (ids : List CellId) : k.runCells ids =
    (match ids.find? fun id => !k.knows id with
      | some unknown => .error (.cellNotFound unknown)
      | none => .ok (),
    { k with
      pending := k.pending.addAll (k.queuedBy ids)
      forced := k.forced.addAll (k.queuedBy ids) }) := by
  induction ids generalizing k with
  | nil => rfl
  | cons id rest ih =>
    unfold Kernel.runCells queuedBy
    cases hlive : k.graph.contains id with
    | true =>
      have hknown : k.knows id = true := by simp [knows, hlive]
      rw [if_pos rfl, ih, List.find?_cons_of_neg (by simp [hknown]),
        List.takeWhile_cons_of_pos hknown, List.filter_cons_of_pos hlive]
      rfl
    | false =>
      cases hparked : k.parked.contains id with
      | true =>
        have hknown : k.knows id = true := by simp [knows, hparked]
        rw [if_neg Bool.false_ne_true, if_pos rfl, ih,
          List.find?_cons_of_neg (by simp [hknown]), List.takeWhile_cons_of_pos hknown,
          List.filter_cons_of_neg (by simp [hlive])]
        rfl
      | false =>
        have hunknown : k.knows id = false := by simp [knows, hlive, hparked]
        rw [if_neg Bool.false_ne_true, if_neg Bool.false_ne_true,
          List.find?_cons_of_pos (by simp [hunknown]),
          List.takeWhile_cons_of_neg (by simp [hunknown])]
        rfl

/-- A request to run changes nothing just when all that it would queue is queued already. -/
theorem runCells_unchanged_iff (k : Kernel κ σ) (ids : List CellId) :
    (k.runCells ids).2 = k ↔
      ∀ id ∈ k.queuedBy ids, k.pending.has id = true ∧ k.forced.has id = true := by
  rw [runCells_eq]
  constructor
  · intro h id hid
    have hpending := OrderedSet.addAll_eq_self_iff.1 (congrArg Kernel.pending h) id hid
    have hforced := OrderedSet.addAll_eq_self_iff.1 (congrArg Kernel.forced h) id hid
    exact ⟨hpending, hforced⟩
  · intro h
    dsimp only
    rw [OrderedSet.addAll_eq_self_iff.2 fun id hid => (h id hid).1,
      OrderedSet.addAll_eq_self_iff.2 fun id hid => (h id hid).2]

/-! ## §4. Rejected events. -/

theorem orUnchanged_rejected {result : Except Error (Kernel κ σ)} {e : Error}
    (h : (k.orUnchanged result).1 = .error e) : (k.orUnchanged result).2 = k := by
  cases result with
  | ok k' => cases h
  | error e' => rfl

/-- **A rejected event changes nothing, but for the cells that a request to run has queued** before
it came to an unknown one; also when the event is carried out step by step. -/
theorem apply_rejected [HashFunction] (x : Executor κ σ) {event : Event} {e : Error}
    (h : (k.apply x event).1 = .error e) :
    (∃ pending forced, (k.apply x event).2 = { k with pending, forced }) ∧
    ((k.apply x event).2 = k ↔ ∀ cells, event = .run cells →
      ∀ id ∈ cells.toList.takeWhile k.knows, k.graph.contains id = true →
        k.pending.has id = true ∧ k.forced.has id = true) ∧
    (k.session.frames = [] → (stepsOf x event).on k = (.error e, (k.apply x event).2)) := by
  have hsteps : k.session.frames = [] →
      (stepsOf x event).on k = (.error e, (k.apply x event).2) := fun hframes =>
    (stepsOf_on hframes x event).trans (Prod.ext h rfl)
  by_cases hrun : ∃ cells, event = .run cells
  · obtain ⟨cells, rfl⟩ := hrun
    have hqueued : (k.apply x (.run cells)).2 = { k with
        pending := k.pending.addAll (k.queuedBy cells.toList)
        forced := k.forced.addAll (k.queuedBy cells.toList) } :=
      congrArg Prod.snd (runCells_eq k cells.toList)
    refine ⟨⟨_, _, hqueued⟩, (runCells_unchanged_iff k cells.toList).trans ?_, hsteps⟩
    simp only [mem_queuedBy, and_imp, Event.run.injEq, forall_eq']
  · -- the other events do all that they do, or nothing
    have hsame : (k.apply x event).2 = k := by
      cases event with
      | register specs => cases h
      | delete id => exact orUnchanged_rejected h
      | run cells => exact absurd ⟨cells, rfl⟩ hrun
      | setElement element value => exact orUnchanged_rejected h
      | updateModel model patch => exact orUnchanged_rejected h
      | setState state value => exact orUnchanged_rejected h
      | watchTriggered watch => cases h
      | complete request start => cases h
    exact ⟨⟨k.pending, k.forced, hsame⟩,
      iff_of_true hsame fun cells hevent => absurd ⟨cells, hevent⟩ hrun, hsteps⟩

/-! ## §5. A request that names an unknown cell. -/

/-- Two cells, which were run. -/
def pairRun : List (Command Unit Unit) :=
  [.apply (.register [⟨⟨0⟩, "x = 1", .ofList ["x"], .empty⟩,
      ⟨⟨2⟩, "y = 1", .ofList ["y"], .empty⟩]),
    .runUntilIdle 2]

/-- Cell 1 is not known: neither deleting it nor a request that begins with it changes anything. -/
theorem pairRun_unchanged :
    let _ := Sha256.hashFunction
    ∃ k₀ k : Kernel Unit Unit, Kernel.start { cellCache := false } {} 0 () = .ok k₀ ∧
      k₀.commandAll? .refuser pairRun = some k ∧
      k.apply .refuser (.delete ⟨1⟩) = (.error (.cellNotFound ⟨1⟩), k) ∧
      k.apply .refuser (.run (.ofList [⟨1⟩, ⟨2⟩])) = (.error (.cellNotFound ⟨1⟩), k) := by
  intro _
  let k₀ : Kernel Unit Unit := { config := { cellCache := false }, session := { own := () } }
  have hend : (k₀.commandAll? .refuser pairRun).map (fun k =>
      ((k.apply .refuser (.delete ⟨1⟩)).1, (k.apply .refuser (.run (.ofList [⟨1⟩, ⟨2⟩]))).1,
        k.knows ⟨1⟩)) =
      some (.error (.cellNotFound ⟨1⟩), .error (.cellNotFound ⟨1⟩), false) := by cbv
  obtain ⟨k, hrun, hfacts⟩ := Option.map_eq_some_iff.1 hend
  simp only [Prod.mk.injEq] at hfacts
  obtain ⟨hdelete, hrequest, hunknown⟩ := hfacts
  refine ⟨k₀, k, rfl, hrun, Prod.ext hdelete ?_, Prod.ext hrequest ?_⟩
  · refine (apply_rejected .refuser hdelete).2.1.2 fun cells h => ?_
    cases h
  · refine (apply_rejected .refuser hrequest).2.1.2 fun cells h id hid => ?_
    obtain rfl := Event.run.inj h
    have hlisted : (OrderedSet.ofList [(⟨1⟩ : CellId), ⟨2⟩]).toList = [⟨1⟩, ⟨2⟩] := by decide
    rw [hlisted, List.takeWhile_cons_of_neg (by simp [hunknown])] at hid
    cases hid

/-- **A rejected request that leaves a cell queued.**  Cell 0 was run and is asked for again
together with cell 1, which is not known. -/
theorem rejected_request_queues :
    let _ := Sha256.hashFunction
    ¬ ∀ (k₀ k : Kernel Unit Unit) (event : Event) (e : Error),
      Kernel.start { cellCache := false } {} 0 () = .ok k₀ →
      k₀.commandAll? .refuser pairRun = some k → (k.apply .refuser event).1 = .error e →
        (k.apply .refuser event).2.pending = k.pending ∧
        (k.apply .refuser event).2.forced = k.forced := by
  intro _ hall
  let k₀ : Kernel Unit Unit := { config := { cellCache := false }, session := { own := () } }
  let event : Event := .run (.ofList [⟨0⟩, ⟨1⟩])
  have hend : (k₀.commandAll? .refuser pairRun).map (fun k =>
      ((k.apply .refuser event).1, (k.apply .refuser event).2.pending.has ⟨0⟩,
        k.pending.has ⟨0⟩)) = some (.error (.cellNotFound ⟨1⟩), true, false) := by cbv
  obtain ⟨k, hrun, hfacts⟩ := Option.map_eq_some_iff.1 hend
  simp only [Prod.mk.injEq] at hfacts
  obtain ⟨hrejected, hqueued, hbefore⟩ := hfacts
  rw [(hall k₀ k event _ rfl hrun hrejected).1, hbefore] at hqueued
  cases hqueued

end Kernel

end Notebook
