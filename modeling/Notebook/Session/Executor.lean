/-
  Notebook.Session.Executor — how cells are run, and how observers are.

  The kernel knows the code of a cell only as a text.  An executor turns a request to run a cell
  into a program, and an observer with a patch into another.
-/
import Notebook.Kernel.Message
import Notebook.Session.Basic

namespace Notebook

/-! ## §1. Requests. -/

/-- What is needed to run a cell. -/
structure Request where
  cell : CellId
  code : String
  /-- The bindings of the names that the cell reads. -/
  inputs : Table String Binding
  /-- The public names that it reads and that are not bound. -/
  missing : List String

/-- What runs cells and observers. -/
structure Executor (κ σ : Type) where
  /-- The program of a cell: it gives the cell's output, or says why it failed. -/
  execute : Request → Program κ σ (Except String CellOutput)
  /-- The program of an observer that is told a patch. -/
  observe : κ → Json → Program κ σ (Except Error Unit)

/-! ## §2. Observers at work. -/

namespace Session

variable [HashFunction] {κ σ : Type}

/-- Runs observers in turn; what one of them fails with does not concern the others. -/
def runObservers (x : Executor κ σ) (patch : Json) : List κ → Session κ σ → Session κ σ
  | [], s => s
  | observer :: rest, s => runObservers x patch rest (s.run (x.observe observer patch)).2

/-- Tells the observers of a model about a change from outside, on behalf of the cell that owns the
model.  Returns that cell. -/
def dispatch (s : Session κ σ) (x : Executor κ σ) (model : ModelId) (patch : Json) :
    Except Error (CellId × Session κ σ) :=
  match s.models.dispatch model with
  | .error e => .error e
  | .ok (cell, observers) =>
    .ok (cell, (runObservers x patch observers (s.enter cell .callback)).leave.2)

end Session

end Notebook
