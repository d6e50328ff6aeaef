/-
  Notebook.Session.Program — code that runs inside the notebook.

  A program computes a result by a sequence of calls to the session around it; each call has its
  type of reply.  The calls are all that code can do: whatever it wants of elements, states, models,
  watched paths, the cache or the queue of events goes through one of them.  `κ` is the type of
  observers that programs leave behind, `σ` the type of a state that belongs to whoever writes the
  programs and that the notebook never touches.
-/
import Notebook.Cache.Store
import Notebook.Disk.Path
import Notebook.Element.Lens
import Notebook.Element.Registry
import Notebook.Kernel.Event

namespace Notebook

/-! ## §1. Watched paths. -/

/-- What is watched at a path. -/
inductive WatchKind where
  | file
  | directory
deriving DecidableEq, Repr

/-- A watched path, as code holds it. -/
structure Handle where
  id : WatchId
  path : Path
  /-- The cell that began to watch. -/
  creator : CellId
deriving DecidableEq, Repr

/-! ## §2. Calls. -/

/-- What a program can ask of the session. -/
inductive Call (κ σ : Type) where
  /-- Records something done besides computing. -/
  | recordEffect (text : String)
  /-- Creates an element, at the top or under a parent at a position. -/
  | createElement (place : Option (ElementId × Lens)) (kind : ElementKind) (value : Json)
  | elementValue (id : ElementId)
  | createState (initial : Json)
  | readState (id : StateId)
  | writeState (id : StateId) (value : Json)
  /-- Makes the running cell the owner of a model. -/
  | bindModel (model : ModelId)
  /-- Nests a model in another one. -/
  | linkModel (child parent : ModelId)
  /-- Leaves an observer with a model. -/
  | observeModel (model : ModelId) (observer : κ)
  | modelOwner (model : ModelId)
  /-- Begins to watch a path. -/
  | watch (path : Path) (kind : WatchKind)
  /-- The handle of a watched path of the given kind. -/
  | handle (id : WatchId) (kind : WatchKind)
  | readText (handle : Handle)
  | readBytes (handle : Handle)
  | writeText (handle : Handle) (text : String)
  | fileExists (handle : Handle)
  | directoryExists (handle : Handle)
  /-- What a directory holds directly. -/
  | entries (handle : Handle)
  /-- Every file below a directory. -/
  | walk (handle : Handle)
  /-- The cell on whose behalf the program runs. -/
  | currentCell
  /-- A value through the cache, `result` being what computing it gives. -/
  | memoize (scope : ScopeId) (strategy : Strategy) (result : Except Error Json)
  /-- Queues an event for the kernel. -/
  | send (event : Event)
  /-- Asks the kernel to stop the run. -/
  | abort
  /-- Changes the state that belongs to the programs; replies with the new one. -/
  | own (change : σ → σ)

/-- The type of reply to a call. -/
def Call.Reply {κ σ : Type} : Call κ σ → Type
  | .recordEffect _ => Except Error Unit
  | .createElement _ _ _ => Except Error ElementId
  | .elementValue _ => Option Json
  | .createState _ => Except Error StateId
  | .readState _ => Option Json
  | .writeState _ _ => Except Error Unit
  | .bindModel _ => Except Error Unit
  | .linkModel _ _ => Unit
  | .observeModel _ _ => Except Error Unit
  | .modelOwner _ => Option CellId
  | .watch _ _ => Except Error Handle
  | .handle _ _ => Option Handle
  | .readText _ => Except Error String
  | .readBytes _ => Except Error (List UInt8)
  | .writeText _ _ => Except Error Unit
  | .fileExists _ => Except Error Bool
  | .directoryExists _ => Except Error Bool
  | .entries _ => Except Error (List Path)
  | .walk _ => Except Error (List Path)
  | .currentCell => Option CellId
  | .memoize _ _ _ => Cache.Served
  | .send _ => Unit
  | .abort => Unit
  | .own _ => σ

/-! ## §3. Programs. -/

/-- A result, or a call and what follows each reply to it. -/
inductive Program (κ σ α : Type) where
  | done (result : α)
  | ask (call : Call κ σ) (next : call.Reply → Program κ σ α)

namespace Program

variable {κ σ α β : Type}

/-- One program after another. -/
def bind : Program κ σ α → (α → Program κ σ β) → Program κ σ β
  | .done a, f => f a
  | .ask call next, f => .ask call fun reply => (next reply).bind f

instance : Monad (Program κ σ) where
  pure := .done
  bind := Program.bind

/-- A single call. -/
def perform (call : Call κ σ) : Program κ σ call.Reply := .ask call .done

@[simp] theorem bind_done (p : Program κ σ α) : p.bind .done = p := by
  induction p with
  | done _ => rfl
  | ask call next ih => simp only [bind, ih]

@[simp] theorem bind_bind {γ : Type} (p : Program κ σ α) (f : α → Program κ σ β)
    (g : β → Program κ σ γ) : (p.bind f).bind g = p.bind fun a => (f a).bind g := by
  induction p with
  | done _ => rfl
  | ask call next ih => simp only [bind, ih]

end Program

end Notebook
