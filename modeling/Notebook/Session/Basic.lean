/-
  Notebook.Session.Basic — everything that running code can reach, and what each call does to it.

  The session keeps the frames of the activities under way, innermost first, and the elements,
  states, models and watched paths that cells have set up.  A call that sets something up belongs to
  the innermost frame: the frame records it as an effect, and without a frame the call is refused.
  A cell may not read through a handle that it created itself, for every change of the path would
  then make it run again.
-/
import Notebook.Disk.Basic
import Notebook.Model
import Notebook.Session.Effect
import Notebook.Session.Program
import Notebook.State

namespace Notebook

/-! ## §1. The session. -/

/-- A watched path and who watches it. -/
structure Watch where
  path : Path
  kind : WatchKind
  creator : CellId
deriving DecidableEq, Repr

/-- Everything that running code can reach. -/
structure Session (κ σ : Type) where
  /-- The activities under way, the innermost first. -/
  frames : List Frame := []
  elements : ElementRegistry := {}
  models : ModelTable κ := {}
  states : StateStore := {}
  watches : Table WatchId Watch := .empty
  /-- The number of the next watch; none is used twice. -/
  nextWatch : Nat := 0
  cache : Cache := {}
  disk : Disk := {}
  /-- Events sent to the kernel, the oldest first. -/
  inbox : List Event := []
  /-- Whether the run is to stop. -/
  aborted : Bool := false
  /-- The state that belongs to the programs. -/
  own : σ

namespace Session

variable {κ σ : Type}

/-- The cell whose activity is the innermost. -/
def currentCell (s : Session κ σ) : Option CellId := s.frames.head?.map Frame.cell

/-- What is said when something needs a cell and none is running. -/
def noCellRunning : Error := .execution "no cell is running"

/-- Changes the innermost frame. -/
def withFrame (s : Session κ σ) (f : Frame → Frame) : Session κ σ :=
  match s.frames with
  | frame :: outer => { s with frames := f frame :: outer }
  | [] => s

/-- Records an effect of the innermost frame. -/
def record (s : Session κ σ) (e : Effect) : Session κ σ := s.withFrame fun frame => frame.record e

/-- Does something on behalf of the innermost frame; refused when there is none. -/
def inFrame {α : Type} (s : Session κ σ) (f : Frame → Except Error α × Session κ σ) :
    Except Error α × Session κ σ :=
  match s.frames with
  | frame :: _ => f frame
  | [] => (.error noCellRunning, s)

/-! ## §2. Elements, states and models. -/

/-- Creates an element of the running cell.  Its identifier comes from the number of elements that
the run has created, and counts even when its parent is missing. -/
def createElement [HashFunction] (s : Session κ σ) (place : Option (ElementId × Lens))
    (kind : ElementKind) (value : Json) : Except Error ElementId × Session κ σ :=
  s.inFrame fun frame =>
    match frame.kind with
    | .callback =>
      (.error (.execution "elements can only be created while a cell runs"), s)
    | .run =>
      let id := ElementId.derive frame.cell frame.ordinal
      let s := s.withFrame fun frame =>
        { frame with ordinal := frame.ordinal + 1 }.record (.createElement id)
      let spec : ElementSpec :=
        ⟨id, kind, value, ElementSpec.fingerprintOf kind value, frame.cell⟩
      let lens := (place.map (·.2)).getD .identity
      match s.elements.register spec (place.map (·.1)) lens with
      | .ok elements => (.ok id, { s with elements })
      | .error e => (.error e, s)

/-- Creates a state of the running cell. -/
def createState (s : Session κ σ) (initial : Json) : Except Error StateId × Session κ σ :=
  s.inFrame fun frame =>
    let (id, states) := s.states.create frame.cell initial
    (.ok id, { s with states }.record (.createState id))

/-- Who writes a state now. -/
def origin (s : Session κ σ) : Origin :=
  match s.currentCell with
  | some cell => .cell cell
  | none => .external

/-- Writes a state.  The effect is recorded even when there is no such state. -/
def writeState (s : Session κ σ) (id : StateId) (value : Json) :
    Except Error Unit × Session κ σ :=
  match s.states.set id value s.origin with
  | .ok states => (.ok (), { s with states }.record (.writeState id))
  | .error e => (.error e, s.record (.writeState id))

/-- Makes the running cell the owner of a model. -/
def bindModel (s : Session κ σ) (model : ModelId) : Except Error Unit × Session κ σ :=
  s.inFrame fun frame =>
    let s := { s with models := s.models.bind model frame.cell }
    (.ok (), s.withFrame fun frame =>
      { frame with boundModels := model :: frame.boundModels }.record (.bindModel model))

/-- Leaves an observer with a model, on behalf of the running cell. -/
def observeModel (s : Session κ σ) (model : ModelId) (observer : κ) :
    Except Error Unit × Session κ σ :=
  s.inFrame fun frame =>
    let s := { s with models := s.models.observe model frame.cell observer }
    (.ok (), s.record (.observe model))

/-! ## §3. Watched paths. -/

/-- Begins to watch a path. -/
def watch (s : Session κ σ) (path : Path) (kind : WatchKind) :
    Except Error Handle × Session κ σ :=
  s.inFrame fun frame =>
    let id : WatchId := ⟨s.nextWatch⟩
    let s := { s with
      watches := s.watches.insert id ⟨path, kind, frame.cell⟩
      nextWatch := s.nextWatch + 1 }
    (.ok ⟨id, path, frame.cell⟩, s.record (.watch id))

/-- The handle of a watched path of the given kind. -/
def handle? (s : Session κ σ) (id : WatchId) (kind : WatchKind) : Option Handle :=
  match s.watches.get? id with
  | some w => if w.kind = kind then some ⟨id, w.path, w.creator⟩ else none
  | none => none

/-- Looks at a watched path, unless the cell that watches it is running. -/
def guarded {α : Type} (s : Session κ σ) (h : Handle) (look : Except Error α) : Except Error α :=
  if s.currentCell = some h.creator then .error (.reentrantWatchAccess h.creator h.path.text)
  else look

/-- Replaces the content of a watched file. -/
def writeText (s : Session κ σ) (h : Handle) (text : String) : Except Error Unit × Session κ σ :=
  match s.disk.write h.path (utf8 text) with
  | .ok disk => (.ok (), { s with disk })
  | .error e => (.error (.io e), s)

/-- Every file below a watched directory.  What cannot be entered is named. -/
def walk (s : Session κ σ) (h : Handle) : Except Error (List Path) :=
  (s.disk.files h.path).mapError fun e =>
    .watch ("IO error for operation on " ++ h.path.text ++ ": " ++ e.message)

/-! ## §4. Answering calls. -/

/-- The reply to a call, and the session after it. -/
def answer [HashFunction] (s : Session κ σ) : (call : Call κ σ) → call.Reply × Session κ σ
  | .recordEffect text => s.inFrame fun _ => (.ok (), s.record (.external text))
  | .createElement place kind value => s.createElement place kind value
  | .elementValue id => (s.elements.value? id, s)
  | .createState initial => s.createState initial
  | .readState id => (s.states.get? id, s)
  | .writeState id value => s.writeState id value
  | .bindModel model => s.bindModel model
  | .linkModel child parent => ((), { s with models := s.models.link child parent })
  | .observeModel model observer => s.observeModel model observer
  | .modelOwner model => (s.models.owner? model, s)
  | .watch path kind => s.watch path kind
  | .handle id kind => (s.handle? id kind, s)
  | .readText h => (s.guarded h ((s.disk.readText h.path).mapError .io), s)
  | .readBytes h => (s.guarded h ((s.disk.readBytes h.path).mapError .io), s)
  | .writeText h text => s.writeText h text
  | .fileExists h => (s.guarded h (.ok (s.disk.isFile h.path)), s)
  | .directoryExists h => (s.guarded h (.ok (s.disk.isDirectory h.path)), s)
  | .entries h => (s.guarded h ((s.disk.entries h.path).mapError .io), s)
  | .walk h => (s.guarded h (s.walk h), s)
  | .currentCell => (s.currentCell, s)
  | .memoize scope strategy result =>
    let (served, cache) := s.cache.getOrCompute scope strategy result
    (served, { s with cache })
  | .send event => ((), { s with inbox := s.inbox ++ [event] })
  | .abort => ((), { s with aborted := true })
  | .own change => (change s.own, { s with own := change s.own })

/-- Runs a program. -/
def run [HashFunction] {α : Type} (s : Session κ σ) : Program κ σ α → α × Session κ σ
  | .done a => (a, s)
  | .ask call next =>
    let (reply, s) := s.answer call
    s.run (next reply)

/-! ## §5. Activities. -/

/-- Begins an activity on behalf of a cell. -/
def enter (s : Session κ σ) (cell : CellId) (kind : FrameKind) : Session κ σ :=
  { s with frames := ⟨cell, kind, 0, [], []⟩ :: s.frames }

/-- Ends the innermost activity; its frame. -/
def leave (s : Session κ σ) : Option Frame × Session κ σ :=
  match s.frames with
  | frame :: outer => (some frame, { s with frames := outer })
  | [] => (none, s)

/-- Drops the watches of a cell. -/
def dropWatchesOf (s : Session κ σ) (cell : CellId) : Session κ σ :=
  { s with watches := s.watches.filter fun _ w => w.creator != cell }

/-- Drops what the previous run of a cell has set up, except its elements, which keep their values
if they are built again, and its models. -/
def beginCell (s : Session κ σ) (cell : CellId) : Session κ σ :=
  { s with
    states := s.states.removeCell cell
    models := s.models.clearObserversOf cell }.dropWatchesOf cell

/-- Drops the models of a cell that its run did not bind again. -/
def finishCell (s : Session κ σ) (cell : CellId) (frame : Frame) : Session κ σ :=
  { s with models := (s.models.retain cell frame.boundModels).2 }

/-- Drops what a deleted cell has set up. -/
def removeCell (s : Session κ σ) (cell : CellId) : Session κ σ :=
  { s with
    states := s.states.removeCell cell
    models := (s.models.removeCell cell).2 }.dropWatchesOf cell

/-- Drops everything that cells have set up.  Activities under way stay, and numbers go on. -/
def reset (s : Session κ σ) : Session κ σ :=
  { s with elements := {}, models := {}, states := s.states.clear, watches := .empty }

end Session

end Notebook
