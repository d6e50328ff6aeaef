/-
  Notebook.Session.Effect — what a run did besides computing its outputs, and who is running.

  A frame stands for one activity: a run of a cell, or the observers of a model at work on behalf of
  the cell that owns it.  A frame without effects is pure, and the digest of no effects is zero.
-/
import Notebook.Digest.Basic
import Notebook.Names

namespace Notebook

/-! ## §1. Effects. -/

/-- Something that a run did besides computing its outputs. -/
inductive Effect where
  | createElement (id : ElementId)
  | createState (id : StateId)
  | writeState (id : StateId)
  | bindModel (model : ModelId)
  | observe (model : ModelId)
  | watch (id : WatchId)
  /-- Something that the code reported by itself. -/
  | external (text : String)
deriving DecidableEq, Repr

namespace Effect

/-- The kind in words. -/
def kind : Effect → String
  | .createElement _ => "create_element"
  | .createState _ => "create_state"
  | .writeState _ => "write_state"
  | .bindModel _ => "bind_model"
  | .observe _ => "observe"
  | .watch _ => "watch"
  | .external _ => "external"

/-- What was concerned. -/
def target : Effect → Json
  | .createElement id => .string id.text
  | .createState id => .nat id.number
  | .writeState id => .nat id.number
  | .bindModel model => .string model.text
  | .observe model => .string model.text
  | .watch id => .nat id.number
  | .external text => .string text

/-- The written form. -/
def toJson (e : Effect) : Json := .object [("effect", .string e.kind), ("target", e.target)]

/-- The digest of effects in their order; that of none is zero. -/
def digestOf [HashFunction] (effects : List Effect) : Digest :=
  if effects.isEmpty then .zero else .ofValue (.array (effects.map toJson))

end Effect

/-! ## §2. Frames. -/

/-- Why code is running on behalf of a cell. -/
inductive FrameKind where
  /-- The cell's own code is running. -/
  | run
  /-- Observers of one of its models are running. -/
  | callback
deriving DecidableEq, Repr

/-- One activity on behalf of a cell. -/
structure Frame where
  cell : CellId
  kind : FrameKind
  /-- How many elements it has created. -/
  ordinal : Nat := 0
  /-- What it did, in order. -/
  effects : List Effect := []
  /-- The models that it bound. -/
  boundModels : List ModelId := []
deriving DecidableEq, Repr

namespace Frame

/-- Whether it did nothing besides computing. -/
def isPure (f : Frame) : Bool := f.effects.isEmpty

/-- Records an effect. -/
def record (f : Frame) (e : Effect) : Frame := { f with effects := f.effects ++ [e] }

end Frame

end Notebook
