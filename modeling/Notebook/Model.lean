/-
  Notebook.Model — models that live outside the notebook, and who observes them.

  A model is bound to the cell that created it or nested in another model; its owner is the first
  cell found on the way from parent to parent.  Observers are kept per model with the cell that
  registered them; what an observer is, the table does not say.
-/
import Notebook.Error

namespace Notebook

/-! ## §1. Bindings. -/

/-- Where a model lives. -/
structure ModelBinding where
  /-- The cell that it is bound to directly. -/
  cell : Option CellId := none
  /-- The model that it is nested in. -/
  parent : Option ModelId := none
deriving DecidableEq, Repr, Inhabited

/-- Models, and observers of type `κ`. -/
structure ModelTable (κ : Type) where
  bindings : Table ModelId ModelBinding := .empty
  observers : Table ModelId (List (CellId × κ)) := .empty

namespace ModelTable

variable {κ : Type}

/-- Binds a model to a cell; its nesting stays. -/
def bind (t : ModelTable κ) (model : ModelId) (cell : CellId) : ModelTable κ :=
  let binding := (t.bindings.get? model).getD {}
  { t with bindings := t.bindings.insert model { binding with cell := some cell } }

/-- Nests a model in another one; its cell stays. -/
def link (t : ModelTable κ) (child parent : ModelId) : ModelTable κ :=
  let binding := (t.bindings.get? child).getD {}
  { t with bindings := t.bindings.insert child { binding with parent := some parent } }

/-- Adds an observer, after those that are there. -/
def observe (t : ModelTable κ) (model : ModelId) (cell : CellId) (observer : κ) : ModelTable κ :=
  let earlier := (t.observers.get? model).getD []
  { t with observers := t.observers.insert model (earlier ++ [(cell, observer)]) }

/-- The first directly bound cell on the way from parent to parent, within `steps` models. -/
def ownerWithin (t : ModelTable κ) : (steps : Nat) → ModelId → Option CellId
  | 0, _ => none
  | steps + 1, model =>
    match t.bindings.get? model with
    | none => none
    | some binding =>
      match binding.cell, binding.parent with
      | some cell, _ => some cell
      | none, some parent => t.ownerWithin steps parent
      | none, none => none

/-- The cell that owns a model.  A way longer than the table goes in a circle. -/
def owner? (t : ModelTable κ) (model : ModelId) : Option CellId :=
  t.ownerWithin t.bindings.size model

/-- The observers of a model, in order. -/
def observersOf (t : ModelTable κ) (model : ModelId) : List κ :=
  ((t.observers.get? model).getD []).map (·.2)

/-- The owner of a model and its observers, for an update from outside. -/
def dispatch (t : ModelTable κ) (model : ModelId) : Except Error (CellId × List κ) :=
  match t.owner? model with
  | some cell => .ok (cell, t.observersOf model)
  | none => .error (.modelNotFound model.text)

/-- The models bound directly to a cell, in order. -/
def modelsOf (t : ModelTable κ) (cell : CellId) : List ModelId :=
  (t.bindings.filter fun _ b => b.cell == some cell).keys

/-- How many observers there are. -/
def observerCount (t : ModelTable κ) : Nat := t.observers.total List.length

/-! ## §2. Removal. -/

/-- Drops every observer that a cell registered. -/
def clearObserversOf (t : ModelTable κ) (cell : CellId) : ModelTable κ :=
  let kept := t.observers.map fun _ list => list.filter fun o => o.1 != cell
  { t with observers := kept.filter fun _ list => !list.isEmpty }

/-- Drops the bindings and observers of the given models. -/
def drop (t : ModelTable κ) (models : List ModelId) : ModelTable κ :=
  { bindings := t.bindings.filter fun m _ => !models.contains m
    observers := t.observers.filter fun m _ => !models.contains m }

/-- The nested models whose parent has no binding. -/
def orphans (t : ModelTable κ) : List ModelId :=
  (t.bindings.filter fun _ b =>
    b.cell.isNone && b.parent.any fun p => !t.bindings.contains p).keys

/-- Drops orphans, and those that this makes orphans, for as many rounds as there may be. -/
def pruneRounds : (rounds : Nat) → ModelTable κ → ModelTable κ
  | 0, t => t
  | rounds + 1, t =>
    match t.orphans with
    | [] => t
    | found => pruneRounds rounds (t.drop found)

/-- Drops every nested model whose way ends at a missing parent.  Each round drops a model. -/
def prune (t : ModelTable κ) : ModelTable κ := pruneRounds t.bindings.size t

/-- Drops the models of a cell that are not in `keep`, and what is orphaned by that.  Returns the
models of the cell that were dropped, in order. -/
def retain (t : ModelTable κ) (cell : CellId) (keep : List ModelId) :
    List ModelId × ModelTable κ :=
  let removed := (t.modelsOf cell).filter fun m => !keep.contains m
  (removed, (t.drop removed).prune)

/-- Drops every model of a cell and every observer that it registered. -/
def removeCell (t : ModelTable κ) (cell : CellId) : List ModelId × ModelTable κ :=
  (t.clearObserversOf cell).retain cell []

end ModelTable

end Notebook
