/-
  Notebook.Identity.Trace — what a unit did during one run.

  A trace is the list of the operations of a run in their order.  Values are recorded by digest.
  The digest of a trace covers each operation in its written form.
-/
import Notebook.Identity.WorkUnit

namespace Notebook

/-- One operation of a run. -/
inductive TraceOp where
  | importModule (module : String) (version : Option String)
  | call (unit : String) (args result : Digest)
  | read (name : String) (value : Digest)
deriving DecidableEq

/-- The operations of a run. -/
abbrev Trace := List TraceOp

/-- The written form of a digest: its bytes as numbers. -/
def Digest.toJson (d : Digest) : Json := .array (d.bytes.map fun b => .nat b.toNat)

namespace TraceOp

/-- The written form of an operation, its kind first. -/
def toJson : TraceOp → Json
  | .importModule module version =>
    .object [("op", .string "import"), ("module", .string module),
      ("version", .ofOption .string version)]
  | .call unit args result =>
    .object [("op", .string "call"), ("unit", .string unit), ("args", args.toJson),
      ("result", result.toJson)]
  | .read name value =>
    .object [("op", .string "read"), ("name", .string name), ("value", value.toJson)]

/-- The record that a module was imported. -/
def ofModule (m : ModuleRef) : TraceOp := .importModule m.name m.version

variable [HashFunction]

/-- The record that a unit was called. -/
def ofCall (unit : String) (args result : Json) : TraceOp :=
  .call unit (.ofValue args) (.ofValue result)

/-- The record that a name was read. -/
def ofRead (name : String) (value : Json) : TraceOp := .read name (.ofValue value)

end TraceOp

namespace Trace

variable [HashFunction]

/-- The digest of a trace. -/
def digest (t : Trace) : Digest :=
  .ofFields "trace" (t.map fun op => Field.ofText "op" op.toJson.text)

end Trace

end Notebook
