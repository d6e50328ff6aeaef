/-
  Notebook.Kernel.Event — requests to the kernel, and which of them are out of date.

  Of the queued completion requests only the last is of interest, and of the queued values for one
  element only the last.  `coalesce` drops the others and keeps the order of the rest.
-/
import Notebook.Cell
import Notebook.Json.Basic

namespace Notebook

/-- A request to the kernel. -/
inductive Event where
  /-- New or edited cells. -/
  | register (specs : List CellSpec)
  | delete (cell : CellId)
  /-- Run these cells and everything downstream of them. -/
  | run (cells : OrderedSet CellId)
  /-- An element was given a value by its user. -/
  | setElement (element : ElementId) (value : Json)
  /-- A model was changed from outside. -/
  | updateModel (model : ModelId) (patch : Json)
  /-- A state was written from outside all cells. -/
  | setState (state : StateId) (value : Json)
  /-- A watched path changed. -/
  | watchTriggered (watch : WatchId)
  /-- Which names begin with `start`? -/
  | complete (request : Nat) (start : String)

namespace Event

/-- Whether `later` makes `earlier` pointless. -/
def supersedes (later earlier : Event) : Bool :=
  match earlier, later with
  | .complete _ _, .complete _ _ => true
  | .setElement a _, .setElement b _ => a == b
  | _, _ => false

/-- Drops every event that a later one supersedes. -/
def coalesce : List Event → List Event
  | [] => []
  | e :: later =>
    if later.any fun l => l.supersedes e then coalesce later else e :: coalesce later

end Event

end Notebook
