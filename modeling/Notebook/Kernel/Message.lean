/-
  Notebook.Kernel.Message — what cells produce, why they do not, and what the kernel publishes.
-/
import Notebook.Namespace

namespace Notebook

/-! ## §1. Outcomes of a cell. -/

/-- What a successful run produced. -/
structure CellOutput where
  /-- New bindings of names that the cell defines. -/
  bindings : Table String Binding := .empty
  /-- What to show under the cell. -/
  display : Option Json := none

/-- Whether every binding is a plain value. -/
def CellOutput.isPlain (o : CellOutput) : Bool := o.bindings.values.all Binding.isValue

/-- Why a cell has no outputs. -/
inductive CellError where
  /-- Another live cell defines one of its names. -/
  | multipleDefinition (name : String) (cells : List CellId)
  /-- It depends on itself. -/
  | cycle (cells : List CellId)
  /-- Its code failed. -/
  | exception (text : String)
  /-- A cell that it depends on failed. -/
  | ancestorFailed (ancestor : CellId)
  /-- A cell that it depends on cannot run. -/
  | ancestorBlocked (ancestor : CellId)
deriving DecidableEq, Repr, Inhabited

namespace CellError

/-- The wording of a cell's error. -/
def message : CellError → String
  | .multipleDefinition name cells => s!"'{name}' is also defined by " ++ joinCells ", " cells
  | .cycle cells => "cell is part of a cycle: " ++ joinCells " → " cells
  | .exception text => text
  | .ancestorFailed ancestor => s!"ancestor {ancestor.text} failed"
  | .ancestorBlocked ancestor => s!"ancestor {ancestor.text} cannot run"

/-- Whether it is that another cell defines one of the names. -/
def isMultipleDefinition : CellError → Bool
  | .multipleDefinition _ _ => true
  | _ => false

end CellError

/-! ## §2. Messages. -/

/-- What the kernel publishes. -/
inductive Message where
  /-- A cell has a new status. -/
  | status (cell : CellId) (now : CellStatus)
  /-- A cell succeeded, by running or from the cache. -/
  | output (cell : CellId) (display : Option Json) (cached : Bool)
  /-- A cell failed or cannot run. -/
  | failure (cell : CellId) (error : CellError)
  /-- An element's value changed; the patch is for the root composite. -/
  | elementValue (element : ElementId) (patch : Json)
  /-- The answer to a completion request; no names when they could not be read. -/
  | completion (request : Nat) (names : Option (List String))
  /-- A cell reads names that no live cell defines. -/
  | danglingRefs (cell : CellId) (names : List String)
  | deleted (cell : CellId)

/-! ## §3. Delivery. -/

/-- What a subscriber receives. -/
inductive Delivery where
  /-- So many messages were lost. -/
  | lagged (count : Nat)
  | message (m : Message)

/-- The number of messages that are kept for a subscriber: the next power of two. -/
def bufferSize (capacity : Nat) : Nat := capacity.nextPowerOfTwo

/-- What a subscriber receives that has not yet read `unread`: the newest messages that fit, after
a word on how many did not. -/
def deliver (capacity : Nat) (unread : List Message) : List Delivery :=
  let lost := unread.length - bufferSize capacity
  let kept := (unread.drop lost).map Delivery.message
  if lost = 0 then kept else .lagged lost :: kept

end Notebook
