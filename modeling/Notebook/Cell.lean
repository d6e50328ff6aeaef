/-
  Notebook.Cell — cells as the analyser describes them and as the graph holds them.

  A cell has code, the names it defines and the names it reads.  Names that begin with the private
  marker belong to their cell alone.  A live cell also has a status and an index, its place in the
  order of first registration, which breaks every tie between cells.
-/
import Notebook.Error

namespace Notebook

/-- What the analyser says about one cell. -/
structure CellSpec where
  id : CellId
  code : String
  defs : OrderedSet String
  refs : OrderedSet String

/-- Where a cell stands. -/
inductive CellStatus where
  /-- Not scheduled; its outputs, if any, are current. -/
  | idle
  /-- In the current run, waiting for its turn. -/
  | queued
  /-- Executing. -/
  | running
  /-- Its inputs changed and it was not executed. -/
  | stale
  /-- Its last run failed, or it cannot run. -/
  | error
deriving DecidableEq, Repr, Inhabited

/-- A live cell. -/
structure Cell where
  id : CellId
  code : String
  defs : OrderedSet String
  refs : OrderedSet String
  status : CellStatus
  /-- Place in the order of first registration. -/
  index : Nat

/-- Whether the cell is just as `spec` describes it. -/
def Cell.matches (c : Cell) (spec : CellSpec) : Bool :=
  c.code == spec.code && c.defs.toList == spec.defs.toList && c.refs.toList == spec.refs.toList

/-- A name that begins with a nonempty marker is private to its cell. -/
def isPrivateName (marker name : String) : Bool :=
  !marker.isEmpty && marker.toList.isPrefixOf name.toList

end Notebook
