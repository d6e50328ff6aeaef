/-
  Notebook.Kernel.Basic — the kernel: cells, names, a session, and what is to be run.

  The kernel owns the graph of live cells and the names they share.  A registration that was refused
  is parked until the name in conflict is free.  `pending` are the cells from which the next run
  starts; those in `forced` run even when the cache has their result.  Everything that subscribers
  learn is published, in order.
-/
import Notebook.Cache.File
import Notebook.Config
import Notebook.Session.Executor

namespace Notebook

/-! ## §1. The kernel. -/

/-- A registration that waits for a name. -/
structure Parked where
  /-- Its place among the parked ones: the cell parked first is retried first. -/
  turn : Nat
  spec : CellSpec

/-- The kernel. -/
structure Kernel (κ σ : Type) where
  config : Config := {}
  graph : Graph := {}
  /-- The names that all cells share. -/
  names : Namespace := {}
  session : Session κ σ
  parked : Table CellId Parked := .empty
  /-- How many turns were given to parked cells. -/
  turns : Nat := 0
  /-- The last error of each cell. -/
  errors : Table CellId CellError := .empty
  /-- Where the next run starts. -/
  pending : OrderedSet CellId := .empty
  /-- The pending cells that are not to be served from the cache. -/
  forced : OrderedSet CellId := .empty
  /-- All messages, the newest first. -/
  published : List Message := []

namespace Kernel

variable {κ σ : Type}

/-- The status of a cell that is live or parked. -/
def status? (k : Kernel κ σ) (cell : CellId) : Option CellStatus :=
  if k.parked.contains cell then some .error else k.graph.status? cell

/-- The plain value of a name. -/
def value? (k : Kernel κ σ) (name : String) : Option Json := (k.names.get? name).bind Binding.value?

/-- All messages, in order. -/
def messages (k : Kernel κ σ) : List Message := k.published.reverse

/-- The messages after the first `read` ones. -/
def messagesAfter (k : Kernel κ σ) (read : Nat) : List Message :=
  (k.published.take (k.published.length - read)).reverse

/-! ## §2. Small steps. -/

/-- Publishes a message. -/
def publish (k : Kernel κ σ) (m : Message) : Kernel κ σ := { k with published := m :: k.published }

/-- Gives a cell a status. -/
def setStatus (k : Kernel κ σ) (cell : CellId) (now : CellStatus) : Kernel κ σ :=
  { k with graph := k.graph.setStatus cell now }.publish (.status cell now)

/-- Queues cells for the next run. -/
def schedule (k : Kernel κ σ) (cells : List CellId) : Kernel κ σ :=
  { k with pending := k.pending.addAll cells }

/-- Takes a cell out of the next run. -/
def unschedule (k : Kernel κ σ) (cell : CellId) : Kernel κ σ :=
  { k with pending := k.pending.remove cell, forced := k.forced.remove cell }

/-- The cells that read one of the names bound to something with the property `p`. -/
def readersWhere (k : Kernel κ σ) (p : Binding → Bool) : OrderedSet CellId :=
  k.graph.readersOf (k.names.namesWhere p)

/-- Unbinds one name. -/
def unbind (k : Kernel κ σ) (name : String) : Kernel κ σ :=
  { k with
    names := k.names.remove name
    session.elements := k.session.elements.unbind name }

/-- Unbinds names. -/
def unbindAll (k : Kernel κ σ) (names : List String) : Kernel κ σ := names.foldl unbind k

/-- Binds one name. -/
def bind (k : Kernel κ σ) (name : String) (b : Binding) : Kernel κ σ :=
  let k := { k with names := k.names.insert name b }
  match b with
  | .element id => { k with session.elements := k.session.elements.bind name id }
  | _ => k

/-- Binds what a cell has produced, as far as it defines the names. -/
def bindOutputs (k : Kernel κ σ) (cell : Cell) (output : CellOutput) : Kernel κ σ :=
  output.bindings.entries.foldl
    (fun k (name, b) => if cell.defs.has name then k.bind name b else k) k

/-- Records that a cell failed or cannot run: its names are unbound, and the error is published. -/
def failCell (k : Kernel κ σ) (cell : CellId) (now : CellStatus) (error : CellError) :
    Kernel κ σ :=
  let defs := ((k.graph.cell? cell).map fun c => c.defs.toList).getD []
  let k := (k.unbindAll defs).setStatus cell now
  { k with errors := k.errors.insert cell error }.publish (.failure cell error)

/-- Marks a cell whose inputs went away, and publishes the names that it misses. -/
def markDangling (k : Kernel κ σ) (cell : CellId) : Kernel κ σ :=
  let missing := k.graph.danglingRefs cell
  let k := if missing.isEmpty then k else k.publish (.danglingRefs cell missing)
  k.setStatus cell .stale

/-- Queues the readers of every state that was written, except the cell that wrote it. -/
def scheduleWrites (k : Kernel κ σ) : Kernel κ σ :=
  let writes := k.session.states.writes
  writes.foldl
    (fun k w =>
      let readers := k.readersWhere (Binding.isState w.state)
      let readers := match w.origin with
        | .cell writer => readers.remove writer
        | .external => readers
      k.schedule readers.toList)
    { k with session.states := { k.session.states with writes := [] } }

/-! ## §3. Beginning and ending. -/

/-- A new kernel.  Its cache starts from the configured file, if that can be loaded. -/
def start (config : Config) (disk : Disk) (clock : Nat) (own : σ) : Except Error (Kernel κ σ) :=
  match config.validate with
  | .error e => .error e
  | .ok config =>
    let cache : Cache := { pinned := config.modulePinning, clock }
    let cache := match config.persistPath with
      | none => cache
      | some path =>
        match Snapshot.load path disk with
        | .ok (some s) => (cache.restore s).2
        | _ => cache
    .ok {
      config
      graph := { privateMarker := config.privateMarker }
      session := { cache, disk, own } }

/-- Binds names before any cell runs, in place of all bindings. -/
def init (k : Kernel κ σ) (initial : List (String × Binding)) : Kernel κ σ :=
  { k with names := k.names.init initial }

/-- Forgets every result.  Cells stay registered and are idle until they are run again. -/
def reset (k : Kernel κ σ) : Kernel κ σ :=
  let k := { k with
    names := k.names.reset
    session := k.session.reset
    pending := .empty
    forced := .empty
    errors := k.errors.filter fun _ e => e.isMultipleDefinition }
  k.graph.ids.foldl (fun k cell => k.setStatus cell .idle) k

/-- Saves the cache to the configured file; whether one is configured. -/
def saveCache (k : Kernel κ σ) : Except Error Bool × Kernel κ σ :=
  match k.config.persistPath with
  | none => (.ok false, k)
  | some path =>
    let (saved, disk) := k.session.cache.snapshot.save path k.session.disk
    ((saved.map fun _ => true).mapError fun e => .serialization e.message,
      { k with session.disk := disk })

end Kernel

end Notebook
