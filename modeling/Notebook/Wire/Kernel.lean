/-
  Notebook.Wire.Kernel — the written forms of outputs, errors, messages and events.
-/
import Notebook.Kernel.Event
import Notebook.Kernel.Message
import Notebook.Wire.Values

namespace Notebook

open Wire

/-! ## §1. Outputs and errors. -/

/-- Names with their bindings, in order. -/
def bindingsToJson (bindings : Table String Binding) : Json :=
  .object (bindings.entries.map fun (name, b) => (name, b.toJson))

namespace CellOutput

/-- The written form. -/
def toJson (o : CellOutput) : Json :=
  .object [("bindings", bindingsToJson o.bindings), ("display", .ofOption id o.display)]

/-- Reads an output; a display of null is none. -/
def ofJson? (doc : Json) : Option CellOutput := do
  let r ← record? ["bindings", "display"] doc
  return {
    bindings := ← r.required "bindings" (table? Binding.ofJson?)
    display := ← r.optional "display" value? }

end CellOutput

/-- The written form of a failed run with its message. -/
def failureToJson (message : String) : Json := .object [("message", .string message)]

/-- Reads the message of a failed run. -/
def failureOfJson? (doc : Json) : Option String :=
  (record? ["message"] doc).bind fun r => r.required "message" text?

namespace CellError

/-- The written form. -/
def toJson : CellError → Json
  | .multipleDefinition name cells =>
    .object [("type", .string "multiple_definition"), ("name", .string name),
      ("cells", cellsToJson cells)]
  | .cycle cells => .object [("type", .string "cycle"), ("cycle", cellsToJson cells)]
  | .exception text => .object [("type", .string "exception"), ("message", .string text)]
  | .ancestorFailed ancestor =>
    .object [("type", .string "ancestor_failed"), ("ancestor", ancestor.toJson)]
  | .ancestorBlocked ancestor =>
    .object [("type", .string "ancestor_blocked"), ("ancestor", ancestor.toJson)]

/-- The names of the variants. -/
def variants : List String :=
  ["multiple_definition", "cycle", "exception", "ancestor_failed", "ancestor_blocked"]

/-- Reads an error whose tag is read by `variant?`. -/
def ofJsonWith? (variant? : Json → Option String) (doc : Json) : Option CellError :=
  match tagged? "type" variant? doc with
  | some ("multiple_definition", rest) => do
    let r ← record? ["name", "cells"] rest
    return .multipleDefinition (← r.required "name" text?)
      (← r.required "cells" (list? CellId.ofJson?))
  | some ("cycle", rest) => do
    let r ← record? ["cycle"] rest
    return .cycle (← r.required "cycle" (list? CellId.ofJson?))
  | some ("exception", rest) => do
    let r ← record? ["message"] rest
    return .exception (← r.required "message" text?)
  | some ("ancestor_failed", rest) => do
    let r ← record? ["ancestor"] rest
    return .ancestorFailed (← r.required "ancestor" CellId.ofJson?)
  | some ("ancestor_blocked", rest) => do
    let r ← record? ["ancestor"] rest
    return .ancestorBlocked (← r.required "ancestor" CellId.ofJson?)
  | _ => none

/-- Reads an error. -/
def ofJson? : Json → Option CellError := ofJsonWith? text?

/-- Reads the error inside a message, whose tag may be the number of a variant. -/
def ofPart? : Json → Option CellError := ofJsonWith? (nameOrNumber? variants)

end CellError

/-! ## §2. Messages. -/

namespace Message

/-- The written form. -/
def toJson : Message → Json
  | .status cell now =>
    .object [("type", .string "cell_status"), ("cell", cell.toJson), ("status", now.toJson)]
  | .output cell display cached =>
    .object [("type", .string "cell_output"), ("cell", cell.toJson),
      ("display", .ofOption id display), ("cached", .bool cached)]
  | .failure cell error =>
    .object [("type", .string "cell_error"), ("cell", cell.toJson), ("error", error.toJson)]
  | .elementValue element patch =>
    .object [("type", .string "element_value"), ("element", .string element.text),
      ("patch", patch)]
  | .completion request names =>
    .object [("type", .string "completion"), ("request", .nat request),
      ("names", .ofOption .strings names)]
  | .danglingRefs cell names =>
    .object [("type", .string "dangling_refs"), ("cell", cell.toJson), ("names", .strings names)]
  | .deleted cell => .object [("type", .string "cell_deleted"), ("cell", cell.toJson)]

/-- Reads a message. -/
def ofJson? (doc : Json) : Option Message :=
  match tagged? "type" text? doc with
  | some ("cell_status", rest) => do
    let r ← record? ["cell", "status"] rest
    return .status (← r.required "cell" CellId.ofJson?) (← r.required "status" CellStatus.ofPart?)
  | some ("cell_output", rest) => do
    let r ← record? ["cell", "display", "cached"] rest
    return .output (← r.required "cell" CellId.ofJson?) (← r.optional "display" value?)
      (← r.required "cached" flag?)
  | some ("cell_error", rest) => do
    let r ← record? ["cell", "error"] rest
    return .failure (← r.required "cell" CellId.ofJson?) (← r.required "error" CellError.ofPart?)
  | some ("element_value", rest) => do
    let r ← record? ["element", "patch"] rest
    return .elementValue (← r.required "element" ElementId.ofJson?) (← r.required "patch" value?)
  | some ("completion", rest) => do
    let r ← record? ["request", "names"] rest
    return .completion (← r.required "request" natural?) (← r.optional "names" (list? text?))
  | some ("dangling_refs", rest) => do
    let r ← record? ["cell", "names"] rest
    return .danglingRefs (← r.required "cell" CellId.ofJson?) (← r.required "names" (list? text?))
  | some ("cell_deleted", rest) => do
    let r ← record? ["cell"] rest
    return .deleted (← r.required "cell" CellId.ofJson?)
  | _ => none

end Message

/-! ## §3. Events. -/

namespace Event

/-- The written form. -/
def toJson : Event → Json
  | .register specs =>
    .object [("event", .string "register"), ("cells", .array (specs.map CellSpec.toJson))]
  | .delete cell => .object [("event", .string "delete"), ("cell", cell.toJson)]
  | .run cells => .object [("event", .string "run"), ("cells", cellsToJson cells.toList)]
  | .setElement element value =>
    .object [("event", .string "set_element"), ("element", .string element.text), ("value", value)]
  | .updateModel model patch =>
    .object [("event", .string "model"), ("model", .string model.text), ("patch", patch)]
  | .setState state value =>
    .object [("event", .string "set_state"), ("state", .nat state.number), ("value", value)]
  | .watchTriggered watch => .object [("event", .string "watch"), ("watch", .nat watch.number)]
  | .complete request start =>
    .object [("event", .string "complete"), ("request", .nat request), ("prefix", .string start)]

/-- Reads an event. -/
def ofJson? (doc : Json) : Option Event := do
  let get {α : Type} (key : String) (read : Json → Option α) : Option α :=
    (doc.field? key).bind read
  match ← get "event" text? with
  | "register" => return .register (← get "cells" (list? CellSpec.ofJson?))
  | "delete" => return .delete (← get "cell" CellId.ofJson?)
  | "run" => return .run (.ofList (← get "cells" (list? CellId.ofJson?)))
  | "set_element" => return .setElement (← get "element" ElementId.ofJson?) (← get "value" value?)
  | "model" => return .updateModel (← get "model" ModelId.ofJson?) (← get "patch" value?)
  | "set_state" => return .setState (← get "state" StateId.ofJson?) (← get "value" value?)
  | "watch" => return .watchTriggered (← get "watch" WatchId.ofJson?)
  | "complete" => return .complete (← get "request" natural?) (← get "prefix" text?)
  | _ => none

end Event

end Notebook
