/-
  Notebook.State — reactive states and the writes that are still to be scheduled.

  A write takes effect at once and is also queued with its origin, so that the readers of the state
  can be run afterwards, but not the cell that wrote it.  Identifiers are never used twice.
-/
import Notebook.Error
import Notebook.Json.Basic

namespace Notebook

/-- Who wrote a state. -/
inductive Origin where
  /-- The cell that was running, or whose observer was. -/
  | cell (id : CellId)
  /-- Something outside all cells. -/
  | external
deriving DecidableEq, Repr, Inhabited

/-- A write that is to be scheduled. -/
structure StateWrite where
  state : StateId
  value : Json
  origin : Origin

/-- A live state. -/
structure StateSlot where
  value : Json
  creator : CellId

/-- The live states and the queued writes. -/
structure StateStore where
  slots : Table StateId StateSlot := .empty
  nextId : Nat := 0
  /-- Writes in the order in which they happened. -/
  writes : List StateWrite := []

namespace StateStore

/-- Creates a state. -/
def create (s : StateStore) (creator : CellId) (initial : Json) : StateId × StateStore :=
  let id : StateId := ⟨s.nextId⟩
  (id, { s with slots := s.slots.insert id ⟨initial, creator⟩, nextId := s.nextId + 1 })

/-- The value of a state. -/
def get? (s : StateStore) (id : StateId) : Option Json := (s.slots.get? id).map StateSlot.value

/-- Writes a state and queues the write. -/
def set (s : StateStore) (id : StateId) (value : Json) (origin : Origin) :
    Except Error StateStore :=
  match s.slots.get? id with
  | some slot =>
    .ok { s with
      slots := s.slots.insert id { slot with value }
      writes := s.writes ++ [⟨id, value, origin⟩] }
  | none => .error (.execution ("unknown state: " ++ id.text))

/-- Drops the states of a cell. -/
def removeCell (s : StateStore) (cell : CellId) : StateStore :=
  { s with slots := s.slots.filter fun _ slot => slot.creator != cell }

/-- Drops all states and queued writes; identifiers go on. -/
def clear (s : StateStore) : StateStore := { s with slots := .empty, writes := [] }

end StateStore

end Notebook
