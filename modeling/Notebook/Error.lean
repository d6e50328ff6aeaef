/-
  Notebook.Error — what can go wrong, and how it is said.

  Each error is a cause with the things it concerns; `Error.message` is the one place that words
  them.
-/
import Notebook.Names

namespace Notebook

/-! ## §1. Files. -/

/-- Why a path could not be read or written. -/
inductive IoError where
  | notFound
  /-- What was to be replaced is a directory that the path does not name. -/
  | busy
  | alreadyExists
  | notADirectory
  | isADirectory
  /-- The path, or one of the names in it, has too many bytes. -/
  | nameTooLong
  | nulInPath
  | invalidUtf8
deriving DecidableEq, Repr, Inhabited

/-- The wording of a failed access. -/
def IoError.message : IoError → String
  | .notFound => "No such file or directory (os error 2)"
  | .busy => "Device or resource busy (os error 16)"
  | .alreadyExists => "File exists (os error 17)"
  | .notADirectory => "Not a directory (os error 20)"
  | .isADirectory => "Is a directory (os error 21)"
  | .nameTooLong => "File name too long (os error 36)"
  | .nulInPath => "file name contained an unexpected NUL byte"
  | .invalidUtf8 => "stream did not contain valid UTF-8"

/-! ## §2. Errors. -/

/-- Why an operation was refused or failed. -/
inductive Error where
  /-- Several live cells define one name. -/
  | multipleDefinition (name : String) (cells : List CellId)
  /-- Cells depend on each other in a circle. -/
  | cycle (cells : List CellId)
  /-- The cell that watches a path accessed it. -/
  | reentrantWatchAccess (cell : CellId) (path : String)
  /-- A cache entry was asked for by a strategy that did not produce it. -/
  | cacheKeyMismatch (scope expected found : String)
  /-- A module to be pinned has neither version nor origin. -/
  | unknownModuleForPinning (module : String)
  /-- An impure unit has no recorded trace. -/
  | uncacheable (unit reason : String)
  | cellNotFound (cell : CellId)
  | elementNotFound (id : String)
  | modelNotFound (id : String)
  | execution (text : String)
  | config (text : String)
  | serialization (text : String)
  | watch (text : String)
  | io (cause : IoError)
deriving DecidableEq, Repr, Inhabited

/-- Cells one after the other. -/
def joinCells (separator : String) (cells : List CellId) : String :=
  separator.intercalate (cells.map CellId.text)

/-- A cycle, closed by its first member. -/
def cycleText : List CellId → String
  | [] => "<empty>"
  | first :: rest => joinCells " → " (first :: rest) ++ " → " ++ first.text

/-- The wording of an error. -/
def Error.message : Error → String
  | .multipleDefinition name cells =>
    s!"variable '{name}' is defined by multiple cells: " ++ joinCells ", " cells
  | .cycle cells => s!"cyclic dependency detected: {cycleText cells}"
  | .reentrantWatchAccess cell path =>
    s!"{path} is watched by {cell.text}; read it from a separate cell that depends on the handle"
  | .cacheKeyMismatch scope expected found =>
    s!"cache key mismatch in scope {scope}: expected {expected}, found {found}"
  | .unknownModuleForPinning module =>
    s!"cannot pin module '{module}': no version or origin is known"
  | .uncacheable unit reason => s!"unit '{unit}' cannot be cached: {reason}"
  | .cellNotFound cell => s!"cell not found: {cell.text}"
  | .elementNotFound id => s!"UI element not found: {id}"
  | .modelNotFound id => s!"model not bound to any cell: {id}"
  | .execution text => s!"execution error: {text}"
  | .config text => s!"configuration error: {text}"
  | .serialization text => s!"serialization error: {text}"
  | .watch text => s!"file watch error: {text}"
  | .io cause => s!"IO error: {cause.message}"

end Notebook
