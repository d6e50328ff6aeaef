/-
  Notebook.Kernel.Update — what a user, a model, a watched path or a program tells the kernel.

  An event changes what it concerns at once and queues the cells that read it; nothing runs here but
  the observers of a model.
-/
import Notebook.Kernel.Edit

namespace Notebook.Kernel

variable [HashFunction] {κ σ : Type}

/-! ## §1. Requests to run. -/

/-- Queues cells to be run whatever the cache has.  Parked cells are passed over; a cell that is not
known ends the request, with the cells before it queued. -/
def runCells (k : Kernel κ σ) : List CellId → Except Error Unit × Kernel κ σ
  | [] => (.ok (), k)
  | cell :: rest =>
    if k.graph.contains cell then
      runCells { k with pending := k.pending.add cell, forced := k.forced.add cell } rest
    else if k.parked.contains cell then runCells k rest
    else (.error (.cellNotFound cell), k)

/-! ## §2. Updates. -/

/-- Gives an element the value that its user chose.  The patch of its root is published, and the
readers of the root and of the element are queued. -/
def setElementValue (k : Kernel κ σ) (element : ElementId) (value : Json) :
    Except Error (Kernel κ σ) :=
  (k.session.elements.setValue element value).map fun ((root, patch), elements) =>
    let k := { k with session.elements := elements }.publish (.elementValue root patch)
    let names := elements.namesOf root ++ elements.namesOf element
    k.schedule (k.graph.readersOf names).toList

/-- Tells the observers of a model about a change from outside.  The readers of the model are
queued, except the cell that owns it. -/
def updateModel (k : Kernel κ σ) (x : Executor κ σ) (model : ModelId) (patch : Json) :
    Except Error (Kernel κ σ) :=
  (k.session.dispatch x model patch).map fun (owner, session) =>
    let k := { k with session }
    let readers := (k.readersWhere (Binding.isModel model)).remove owner
    (k.schedule readers.toList).scheduleWrites

/-- Writes a state from outside all cells and queues its readers. -/
def setState (k : Kernel κ σ) (state : StateId) (value : Json) : Except Error (Kernel κ σ) :=
  match k.session.writeState state value with
  | (.ok (), session) => .ok { k with session }.scheduleWrites
  | (.error e, _) => .error e

/-- Queues the readers of a watched path. -/
def watchTriggered (k : Kernel κ σ) (watch : WatchId) : Kernel κ σ :=
  k.schedule (k.readersWhere (Binding.isWatch watch)).toList

/-- Answers a completion request. -/
def complete (k : Kernel κ σ) (request : Nat) (start : String) : Kernel κ σ :=
  k.publish (.completion request (k.names.complete? .free start))

/-! ## §3. Events. -/

/-- The kernel after an operation that changes nothing when it fails. -/
def orUnchanged (k : Kernel κ σ) : Except Error (Kernel κ σ) → Except Error Unit × Kernel κ σ
  | .ok k => (.ok (), k)
  | .error e => (.error e, k)

/-- Applies one event. -/
def apply (k : Kernel κ σ) (x : Executor κ σ) : Event → Except Error Unit × Kernel κ σ
  | .register specs => (.ok (), k.registerCells specs)
  | .delete cell => k.orUnchanged (k.deleteCell cell)
  | .run cells => k.runCells cells.toList
  | .setElement element value => k.orUnchanged (k.setElementValue element value)
  | .updateModel model patch => k.orUnchanged (k.updateModel x model patch)
  | .setState state value => k.orUnchanged (k.setState state value)
  | .watchTriggered watch => (.ok (), k.watchTriggered watch)
  | .complete request start => (.ok (), k.complete request start)

/-- Applies events in turn; what one of them fails with does not concern the others. -/
def applyAll (k : Kernel κ σ) (x : Executor κ σ) (events : List Event) : Kernel κ σ :=
  events.foldl (fun k e => (k.apply x e).2) k

/-- Applies the queued events that are not out of date.  Also tells how many were queued. -/
def drain (k : Kernel κ σ) (x : Executor κ σ) : Nat × Kernel κ σ :=
  let events := k.session.inbox
  (events.length, { k with session.inbox := [] }.applyAll x (Event.coalesce events))

end Notebook.Kernel
