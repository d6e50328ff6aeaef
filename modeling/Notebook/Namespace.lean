/-
  Notebook.Namespace — the names that all cells share, and what they are bound to.

  The generation counts the changes.  Completion reads the names without waiting: while somebody
  else holds the names, or they are being changed, it gives up instead.
-/
import Notebook.Cell
import Notebook.Json.Basic

namespace Notebook

/-! ## §1. Bindings. -/

/-- What a name is bound to. -/
inductive Binding where
  | value (v : Json)
  /-- An element, whose value is in the registry. -/
  | element (id : ElementId)
  | state (id : StateId)
  /-- A handle to a watched path. -/
  | watch (id : WatchId)
  | model (id : ModelId)
  /-- Something that cannot be described. -/
  | opaqueValue (typeName : String)
deriving Inhabited

namespace Binding

/-- The plain value, if it is one. -/
def value? : Binding → Option Json
  | .value v => some v
  | _ => none

/-- Whether it is a plain value. -/
def isValue (b : Binding) : Bool := b.value?.isSome

/-- The kind in words. -/
def kind : Binding → String
  | .value _ => "value"
  | .element _ => "element"
  | .state _ => "state"
  | .watch _ => "watch"
  | .model _ => "model"
  | .opaqueValue _ => "opaque"

/-- Whether it is the given state. -/
def isState (id : StateId) : Binding → Bool
  | .state s => s == id
  | _ => false

/-- Whether it is the given watch. -/
def isWatch (id : WatchId) : Binding → Bool
  | .watch w => w == id
  | _ => false

/-- Whether it is the given model. -/
def isModel (id : ModelId) : Binding → Bool
  | .model m => m == id
  | _ => false

end Binding

/-! ## §2. Names. -/

/-- Names and their bindings. -/
structure Namespace where
  bindings : Table String Binding := .empty
  /-- How often the names were changed. -/
  generation : Nat := 0

namespace Namespace

/-- Replaces all bindings; of two bindings of one name the later counts. -/
def init (n : Namespace) (initial : List (String × Binding)) : Namespace :=
  ⟨.ofList initial, n.generation + 1⟩

/-- Drops all bindings. -/
def reset (n : Namespace) : Namespace := ⟨.empty, n.generation + 1⟩

/-- What a name is bound to. -/
def get? (n : Namespace) (name : String) : Option Binding := n.bindings.get? name

/-- Binds a name. -/
def insert (n : Namespace) (name : String) (b : Binding) : Namespace :=
  ⟨n.bindings.insert name b, n.generation + 1⟩

/-- Unbinds a name; the generation moves only when it was bound. -/
def remove (n : Namespace) (name : String) : Namespace :=
  if n.bindings.contains name then ⟨n.bindings.erase name, n.generation + 1⟩ else n

/-- All names, in order. -/
def names (n : Namespace) : List String := n.bindings.keys

/-- The names whose binding satisfies `p`, in order. -/
def namesWhere (n : Namespace) (p : Binding → Bool) : List String :=
  (n.bindings.filter fun _ b => p b).keys

/-! ## §3. Completion. -/

/-- Who has hold of the names when a completion is asked for. -/
inductive Access where
  /-- Nobody else: they are free, or held by the asker. -/
  | free
  /-- They are being changed. -/
  | changing
  /-- Somebody else holds them. -/
  | elsewhere
deriving DecidableEq, Repr

/-- The names that begin with `start`, in order; nothing while they cannot be read at once. -/
def complete? (n : Namespace) (access : Access) (start : String) : Option (List String) :=
  match access with
  | .free => some (n.names.filter fun name => start.toList.isPrefixOf name.toList)
  | .changing | .elsewhere => none

end Namespace

end Notebook
