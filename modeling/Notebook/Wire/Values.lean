/-
  Notebook.Wire.Values — the written forms of cells, bindings, elements and identities.

  Each type has `toJson`, which lists fields in a fixed order, and `ofJson?`, which reads them back.
-/
import Notebook.Element.Registry
import Notebook.Identity.Strategy
import Notebook.Namespace
import Notebook.State
import Notebook.Wire.Reader

namespace Notebook

open Wire

/-! ## §1. Identifiers. -/

/-- The written form of a cell's identifier: its number. -/
def CellId.toJson (id : CellId) : Json := .nat id.number

/-- Reads a cell's identifier. -/
def CellId.ofJson? (doc : Json) : Option CellId := (natural? doc).map CellId.mk

/-- Reads a state's identifier. -/
def StateId.ofJson? (doc : Json) : Option StateId := (natural? doc).map StateId.mk

/-- Reads a watch's identifier. -/
def WatchId.ofJson? (doc : Json) : Option WatchId := (natural? doc).map WatchId.mk

/-- Reads an element's identifier. -/
def ElementId.ofJson? (doc : Json) : Option ElementId := (text? doc).map ElementId.mk

/-- Reads a model's identifier. -/
def ModelId.ofJson? (doc : Json) : Option ModelId := (text? doc).map ModelId.mk

/-- Several cells. -/
def cellsToJson (cells : List CellId) : Json := .array (cells.map CellId.toJson)

/-! ## §2. Cells. -/

namespace CellStatus

/-- The status in words. -/
def text : CellStatus → String
  | .idle => "idle"
  | .queued => "queued"
  | .running => "running"
  | .stale => "stale"
  | .error => "error"

/-- The written form. -/
def toJson (s : CellStatus) : Json := .string s.text

/-- The status with a name. -/
def ofName? : String → Option CellStatus
  | "idle" => some .idle
  | "queued" => some .queued
  | "running" => some .running
  | "stale" => some .stale
  | "error" => some .error
  | _ => none

/-- Reads a status. -/
def ofJson? (doc : Json) : Option CellStatus := (variantName? doc).bind ofName?

/-- Reads the status inside a message. -/
def ofPart? (doc : Json) : Option CellStatus := (partName? doc).bind ofName?

end CellStatus

namespace CellSpec

/-- The written form. -/
def toJson (s : CellSpec) : Json :=
  .object [("id", s.id.toJson), ("code", .string s.code), ("defs", .strings s.defs.toList),
    ("refs", .strings s.refs.toList)]

/-- Reads a description; without names there are none. -/
def ofJson? (doc : Json) : Option CellSpec := do
  let r ← record? ["id", "code", "defs", "refs"] doc
  return {
    id := ← r.required "id" CellId.ofJson?
    code := ← r.required "code" text?
    defs := ← r.defaulted "defs" .empty names?
    refs := ← r.defaulted "refs" .empty names? }

end CellSpec

/-! ## §3. Bindings and origins. -/

namespace Binding

/-- What is bound, without its kind. -/
def content : Binding → Json
  | .value v => v
  | .element id => .string id.text
  | .state id => .nat id.number
  | .watch id => .nat id.number
  | .model id => .string id.text
  | .opaqueValue typeName => .object [("type_name", .string typeName)]

/-- The written form. -/
def toJson (b : Binding) : Json := .object [("kind", .string b.kind), ("value", b.content)]

/-- Reads a binding.  Something opaque is described by an object. -/
def ofJson? (doc : Json) : Option Binding :=
  match adjacent? "kind" "value" doc with
  | some ("value", some v) => (Wire.value? v).map .value
  | some ("element", some v) => (ElementId.ofJson? v).map .element
  | some ("state", some v) => (StateId.ofJson? v).map .state
  | some ("watch", some v) => (WatchId.ofJson? v).map .watch
  | some ("model", some v) => (ModelId.ofJson? v).map .model
  | some ("opaque", some (.object fields)) =>
    (record? ["type_name"] (.object fields)).bind fun r =>
      (r.required "type_name" text?).map .opaqueValue
  | _ => none

end Binding

namespace Origin

/-- The written form. -/
def toJson : Origin → Json
  | .cell id => .object [("cell", id.toJson)]
  | .external => .string "external"

/-- Reads an origin. -/
def ofJson? : Json → Option Origin
  | .object [("cell", doc)] => (CellId.ofJson? doc).map .cell
  | doc =>
    match variantName? doc with
    | some "external" => some .external
    | _ => none

end Origin

/-! ## §4. Elements. -/

namespace Lens

/-- The written form. -/
def toJson : Lens → Json
  | .identity => .object [("lens", .string "identity")]
  | .index i => .object [("lens", .string "index"), ("at", .nat i)]
  | .key k => .object [("lens", .string "key"), ("at", .string k)]

/-- Reads a position. -/
def ofJson? (doc : Json) : Option Lens :=
  match adjacent? "lens" "at" doc with
  | some ("identity", content) => (noContent content).map fun _ => .identity
  | some ("index", some doc) => (natural? doc).map .index
  | some ("key", some doc) => (text? doc).map .key
  | _ => none

end Lens

/-- Reads the kind of an element. -/
def ElementKind.ofJson? (doc : Json) : Option ElementKind :=
  match tagged? "type" text? doc with
  | some ("leaf", rest) =>
    (record? ["widget"] rest).bind fun r => (r.required "widget" text?).map .leaf
  | some ("array", rest) => (noFields rest).map fun _ => .array
  | some ("dictionary", rest) => (noFields rest).map fun _ => .dictionary
  | some ("batch", rest) => (noFields rest).map fun _ => .batch
  | _ => none

/-! ## §5. Identities. -/

/-- Reads a digest. -/
def Digest.ofJson? (doc : Json) : Option Digest := digest? doc

namespace Strategy

/-- The written form. -/
def toJson (s : Strategy) : Json :=
  .object [("strategy", .string s.kind), ("digest", s.digest.toJson)]

/-- Reads a strategy. -/
def ofJson? (doc : Json) : Option Strategy :=
  match adjacent? "strategy" "digest" doc with
  | some ("content_addressed", some d) => (digest? d).map .content
  | some ("execution_path", some d) => (digest? d).map .path
  | _ => none

end Strategy

/-- Reads a module whose imports nest at most `depth` deep. -/
def ModuleRef.ofJsonWithin : (depth : Nat) → Json → Option ModuleRef
  | 0, _ => none
  | depth + 1, doc => do
    let r ← record? ["name", "alias", "version", "origin", "imports"] doc
    return {
      name := ← r.required "name" text?
      localName := ← r.defaulted "alias" none (nullable? text?)
      version := ← r.defaulted "version" none (nullable? text?)
      origin := ← r.defaulted "origin" none (nullable? text?)
      imports := ← r.defaulted "imports" [] (list? (ModuleRef.ofJsonWithin depth)) }

mutual

/-- How deep arrays and objects nest. -/
def Json.depth : Json → Nat
  | .array items => Json.depthOfItems items + 1
  | .object fields => Json.depthOfFields fields + 1
  | _ => 0

/-- The deepest of several values. -/
def Json.depthOfItems : List Json → Nat
  | [] => 0
  | item :: rest => max item.depth (Json.depthOfItems rest)

/-- The deepest value of several fields. -/
def Json.depthOfFields : List (String × Json) → Nat
  | [] => 0
  | (_, value) :: rest => max value.depth (Json.depthOfFields rest)

end

/-- Reads a module.  Its imports cannot nest deeper than the document does. -/
def ModuleRef.ofJson? (doc : Json) : Option ModuleRef := ModuleRef.ofJsonWithin (doc.depth + 1) doc

namespace TraceOp

/-- Reads an operation. -/
def ofJson? (doc : Json) : Option TraceOp :=
  match tagged? "op" text? doc with
  | some ("import", rest) => do
    let r ← record? ["module", "version"] rest
    return .importModule (← r.required "module" text?) (← r.optional "version" text?)
  | some ("call", rest) => do
    let r ← record? ["unit", "args", "result"] rest
    return .call (← r.required "unit" text?) (← r.required "args" digest?)
      (← r.required "result" digest?)
  | some ("read", rest) => do
    let r ← record? ["name", "value"] rest
    return .read (← r.required "name" text?) (← r.required "value" digest?)
  | _ => none

end TraceOp

namespace Trace

/-- The written form. -/
def toJson (t : Trace) : Json := .object [("ops", .array (t.map TraceOp.toJson))]

/-- Reads a trace. -/
def ofJson? (doc : Json) : Option Trace := do
  let r ← record? ["ops"] doc
  r.required "ops" (list? TraceOp.ofJson?)

end Trace

end Notebook
