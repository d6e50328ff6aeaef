/-
  Notebook.Kernel.Edit — registering and deleting cells.

  A cell that defines a name which another live cell defines is parked, and leaves the graph if it
  was live before.  Whenever definitions may have been given up, the parked cells are tried again in
  the order in which they were parked.
-/
import Notebook.Kernel.Basic

namespace Notebook.Kernel

variable {κ σ : Type}

/-! ## §1. Removing. -/

/-- Removes a live cell with everything that it set up.  Its readers become stale. -/
def removeFromGraph (k : Kernel κ σ) (cell : CellId) : Kernel κ σ :=
  match k.graph.cell? cell with
  | none => k
  | some c =>
    let children := k.graph.children cell
    let k := { k with graph := k.graph.unregister cell }.unbindAll c.defs.toList
    let session := k.session.removeCell cell
    let cache := (session.cache.invalidate (.ofCell cell)).2
    children.foldl markDangling { k with session := { session with cache } }

/-! ## §2. Parking. -/

/-- The error of a cell whose registration was refused: the first name in conflict, and every cell
that defines a name in conflict. -/
def conflictError (conflict : Graph.Conflict) : CellError :=
  .multipleDefinition ((conflict.names.head?.map (·.1)).getD "")
    (OrderedSet.ofList (conflict.names.map (·.2))).toList

/-- Parks a cell.  One that is parked already keeps its turn. -/
def park (k : Kernel κ σ) (spec : CellSpec) (conflict : Graph.Conflict) : Kernel κ σ :=
  let k := k.removeFromGraph spec.id
  let error := conflictError conflict
  let (turn, turns) := match k.parked.get? spec.id with
    | some p => (p.turn, k.turns)
    | none => (k.turns + 1, k.turns + 1)
  let k := { k with
    parked := k.parked.insert spec.id ⟨turn, spec⟩
    turns
    errors := k.errors.insert spec.id error }
  ((k.unschedule spec.id).publish (.status spec.id .error)).publish (.failure spec.id error)

/-- Puts an accepted cell into the graph, to be run. -/
def accept (k : Kernel κ σ) (cell : CellId) (graph : Graph) : Kernel κ σ :=
  { k with
    graph
    parked := k.parked.erase cell
    errors := k.errors.erase cell
    pending := k.pending.add cell }

/-- Tries a parked cell again. -/
def retry (k : Kernel κ σ) (cell : CellId) : Kernel κ σ :=
  match k.parked.get? cell with
  | none => k
  | some p =>
    match k.graph.register p.spec with
    | .ok graph => k.accept cell graph
    | .error _ => k

/-- The parked cells by their turns. -/
def parkedInTurn (k : Kernel κ σ) : List CellId :=
  ((k.parked.entries.map fun (id, p) => (p.turn, id)).mergeSort fun a b => a.1 ≤ b.1).map (·.2)

/-- Tries the parked cells again, the one parked first before the others. -/
def retryParked (k : Kernel κ σ) : Kernel κ σ := k.parkedInTurn.foldl retry k

/-! ## §3. Registering. -/

/-- Whether a live cell is just as `spec` describes it. -/
def isUnchanged (k : Kernel κ σ) (spec : CellSpec) : Bool :=
  !k.parked.contains spec.id && (k.graph.cell? spec.id).any fun c => c.matches spec

/-- Registers one cell.  Names that it defined and no longer defines are unbound, and their readers
become stale. -/
def registerOne (k : Kernel κ σ) (spec : CellSpec) : Kernel κ σ :=
  if k.isUnchanged spec then k else
  match k.graph.register spec with
  | .error conflict => k.park spec conflict
  | .ok graph =>
    let old := ((k.graph.cell? spec.id).map Cell.defs).getD .empty
    let dropped := (old.diff spec.defs).toList
    let k := (k.accept spec.id graph).unbindAll dropped
    (k.graph.readersOf dropped).toList.foldl markDangling k

/-- Registers new or edited cells and queues them. -/
def registerCells (k : Kernel κ σ) (specs : List CellSpec) : Kernel κ σ :=
  (specs.foldl registerOne k).retryParked

/-! ## §4. Deleting. -/

/-- Deletes a live or parked cell. -/
def deleteCell (k : Kernel κ σ) (cell : CellId) : Except Error (Kernel κ σ) :=
  if !k.parked.contains cell && !k.graph.contains cell then .error (.cellNotFound cell) else
  let k := if k.parked.contains cell then { k with parked := k.parked.erase cell }
    else k.removeFromGraph cell
  let k := { k with errors := k.errors.erase cell }.unschedule cell
  .ok (k.publish (.deleted cell)).retryParked

end Notebook.Kernel
