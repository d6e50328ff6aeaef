/-
  Notebook.Kernel.Run — running what is pending, and everything downstream.

  A round plans from the pending cells, blocks what lies on a cycle or below one, and goes through
  the others in dependency order.  A cell is not run when a cell that it depends on failed, is stale
  or is blocked.  A cell without effects whose outputs are plain is kept in the cache, and served
  from there when its code and its inputs come back.  Rounds follow each other until nothing is
  pending, since a run can write states that other cells read.
-/
import Notebook.Graph.Plan
import Notebook.Kernel.Update
import Notebook.Wire.Kernel

namespace Notebook

/-! ## §1. Reports. -/

/-- What happened to the cells of a run. -/
structure RunReport where
  /-- Cells whose code ran. -/
  executed : List CellId := []
  /-- Cells served from the cache. -/
  cached : List CellId := []
  /-- Cells whose code failed. -/
  failed : List CellId := []
  /-- Cells passed over, because a cell above them failed or the run was stopped. -/
  skipped : List CellId := []
  /-- Cells on a cycle or below one. -/
  blocked : List CellId := []
deriving DecidableEq, Repr

/-- Every cell that the run touched, whatever became of it. -/
def RunReport.touched (r : RunReport) : OrderedSet CellId :=
  .ofList (r.executed ++ r.cached ++ r.failed ++ r.skipped ++ r.blocked)

/-- What became of a cell that was run. -/
inductive Outcome where
  | executed
  | cached
  | failed
deriving DecidableEq, Repr

namespace Kernel

variable [HashFunction] {κ σ : Type}

/-! ## §2. Inputs and identity of a cell. -/

/-- What a binding means for the identity of a cell that reads it. -/
def resolve (s : Session κ σ) : Binding → Resolved
  | .value v => .value v
  | .element id =>
    match s.elements.value? id with
    | some v => .value v
    | none => .impure s!"element {id.text} is gone"
  | .state id =>
    match s.states.get? id with
    | some v => .value v
    | none => .impure s!"{id.text} is gone"
  | .watch id => .impure s!"{id.text} reads the filesystem"
  | .model id => .impure s!"model {id.text} is externally mutable"
  | .opaqueValue typeName => .impure s!"opaque {typeName}"

/-- The names that a cell reads and does not define. -/
def foreignRefs (cell : Cell) : List String :=
  cell.refs.toList.filter fun name => !cell.defs.has name

/-- The bindings that a cell reads. -/
def inputs (k : Kernel κ σ) (cell : Cell) : Table String Binding :=
  k.names.bindings.filter fun name _ => cell.refs.has name && !cell.defs.has name

/-- The public names that a cell reads and that are not bound. -/
def missing (k : Kernel κ σ) (cell : Cell) : List String :=
  (foreignRefs cell).filter fun name => (k.names.get? name).isNone && !k.graph.isPrivate name

/-- The unit that a cell is cached as. -/
def unitOf (k : Kernel κ σ) (cell : Cell) : WorkUnit where
  name := cell.id.text
  source := cell.code
  freeVars := .ofList ((foreignRefs cell).filter fun name => !k.graph.isPrivate name)

/-- The identity under which the result of a cell is cached now, if it can be. -/
def identityOf? (k : Kernel κ σ) (cell : Cell) : Option Strategy :=
  if k.config.cellCache then
    let env : Environment := { bindings := k.names.bindings.map fun _ b => resolve k.session b }
    (identify env k.session.cache.pinned (k.unitOf cell)).toOption
  else none

/-- The cached output of a cell. -/
def cachedOutput (k : Kernel κ σ) (cell : CellId) (strategy : Strategy) :
    Option CellOutput × Kernel κ σ :=
  let (found, cache) := k.session.cache.lookupOrMiss (.ofCell cell) strategy
  (found.bind fun entry => CellOutput.ofJson? entry.result, { k with session.cache := cache })

/-! ## §3. Running a cell. -/

/-- Ends a successful run: outputs are bound and shown. -/
def succeed (k : Kernel κ σ) (cell : Cell) (output : CellOutput) (cached : Bool) : Kernel κ σ :=
  (k.setStatus cell.id .idle).publish (.output cell.id output.display cached)

/-- Keeps a result in the cache, when the run had no effects and gave plain values. -/
def keepResult (k : Kernel κ σ) (cell : CellId) (strategy : Option Strategy)
    (frame : Option Frame) (output : CellOutput) : Kernel κ σ :=
  match strategy, frame with
  | some strategy, some frame =>
    if frame.isPure && output.isPlain then
      let effects := Effect.digestOf frame.effects
      { k with session.cache :=
        k.session.cache.store (.ofCell cell) strategy output.toJson effects }
    else k
  | _, _ => k

/-- Runs a program on behalf of a cell; its result and its frame. -/
def perform {α : Type} (k : Kernel κ σ) (cell : CellId) (program : Program κ σ α) :
    α × Option Frame × Kernel κ σ :=
  let (result, session) := (k.session.enter cell .run).run program
  let (frame, session) := session.leave
  let session := match frame with
    | some frame => session.finishCell cell frame
    | none => session
  (result, frame, { k with session })

/-- Executes the code of a cell. -/
def execute (k : Kernel κ σ) (x : Executor κ σ) (cell : Cell) (request : Request)
    (strategy : Option Strategy) : Outcome × Kernel κ σ :=
  let (result, frame, k) := k.perform cell.id (x.execute request)
  match result with
  | .ok output =>
    let k := (k.bindOutputs cell output).keepResult cell.id strategy frame output
    (.executed, k.succeed cell output false)
  | .error text => (.failed, k.failCell cell.id .error (.exception text))

/-- Serves a cell from the cache, if it has its output. -/
def serve? (k : Kernel κ σ) (cell : Cell) (forced : Bool) (strategy : Option Strategy) :
    Option CellOutput × Kernel κ σ :=
  match strategy with
  | some strategy => if forced then (none, k) else k.cachedOutput cell.id strategy
  | none => (none, k)

/-- Runs a live cell, or serves it from the cache. -/
def runLive (k : Kernel κ σ) (x : Executor κ σ) (cell : Cell) (forced : Bool) :
    Outcome × Kernel κ σ :=
  let k := k.setStatus cell.id .running
  let k := { k with errors := k.errors.erase cell.id }
  let request : Request := ⟨cell.id, cell.code, k.inputs cell, k.missing cell⟩
  let k := k.unbindAll cell.defs.toList
  let k := { k with session := k.session.beginCell cell.id }
  let strategy := k.identityOf? cell
  match k.serve? cell forced strategy with
  | (some output, k) => (.cached, (k.bindOutputs cell output).succeed cell output true)
  | (none, k) => k.execute x cell request strategy

/-- Runs a cell. -/
def runCell (k : Kernel κ σ) (x : Executor κ σ) (cell : CellId) (forced : Bool) :
    Outcome × Kernel κ σ :=
  match k.graph.cell? cell with
  | some c => k.runLive x c forced
  | none => (.failed, k)

/-! ## §4. Rounds. -/

/-- A round under way. -/
structure Round (κ σ : Type) where
  kernel : Kernel κ σ
  report : RunReport
  /-- The cells of the round that give no outputs. -/
  failed : List CellId := []

namespace Round

/-- Blocks a cell. -/
def block (r : Round κ σ) (cell : CellId) (reason : BlockReason) : Round κ σ :=
  let kernel := match reason with
    | .inCycle cycle => r.kernel.failCell cell .error (.cycle cycle)
    | .downstreamOf ancestor => r.kernel.failCell cell .stale (.ancestorBlocked ancestor)
  { kernel
    report := { r.report with blocked := r.report.blocked ++ [cell] }
    failed := cell :: r.failed }

/-- The first cell that a cell depends on and that gives no outputs. -/
def failedParent? (r : Round κ σ) (cell : CellId) : Option CellId :=
  (r.kernel.graph.parents cell).find? fun parent =>
    r.failed.contains parent ||
      match r.kernel.graph.status? parent with
      | some .error | some .stale => true
      | _ => false

/-- Passes over a cell. -/
def skip (r : Round κ σ) (cell : CellId) : Round κ σ :=
  { r with report := { r.report with skipped := r.report.skipped ++ [cell] } }

/-- Comes to a cell: runs it, unless the run is to stop or a cell above it gives no outputs. -/
def visit (x : Executor κ σ) (forced : OrderedSet CellId) (r : Round κ σ) (cell : CellId) :
    Round κ σ :=
  if r.kernel.session.aborted then
    { r with kernel := r.kernel.setStatus cell .stale }.skip cell
  else
    match r.failedParent? cell with
    | some ancestor =>
      { r with
        kernel := r.kernel.failCell cell .stale (.ancestorFailed ancestor)
        failed := cell :: r.failed }.skip cell
    | none =>
      match r.kernel.runCell x cell (forced.has cell) with
      | (.executed, kernel) =>
        { r with kernel, report := { r.report with executed := r.report.executed ++ [cell] } }
      | (.cached, kernel) =>
        { r with kernel, report := { r.report with cached := r.report.cached ++ [cell] } }
      | (.failed, kernel) =>
        { kernel
          report := { r.report with failed := r.report.failed ++ [cell] }
          failed := cell :: r.failed }

end Round

/-- Evicts the elements that are out of reach. -/
def collectGarbage (k : Kernel κ σ) : Kernel κ σ :=
  { k with session.elements := k.session.elements.collectGarbage.2 }

/-- One round from the given cells. -/
def runOnce (k : Kernel κ σ) (x : Executor κ σ) (roots forced : OrderedSet CellId)
    (report : RunReport) : RunReport × Kernel κ σ :=
  let plan := k.graph.plan roots
  let r : Round κ σ := plan.blocked.foldl (fun r (cell, reason) => r.block cell reason)
    { kernel := k, report }
  let r := { r with kernel := plan.order.foldl (fun k cell => k.setStatus cell .queued) r.kernel }
  let r := plan.order.foldl (Round.visit x forced) r
  (r.report, r.kernel.collectGarbage.scheduleWrites)

/-! ## §5. Runs. -/

/-- Makes nothing pending. -/
def clearPending (k : Kernel κ σ) : Kernel κ σ := { k with pending := .empty, forced := .empty }

/-- Applies queued events and runs what is pending, round after round; nothing when more than
`rounds` rounds are needed. -/
def runRounds (x : Executor κ σ) : (rounds : Nat) → Kernel κ σ → RunReport →
    Option (RunReport × Kernel κ σ)
  | 0, _, _ => none
  | rounds + 1, k, report =>
    let k := (k.drain x).2.scheduleWrites
    if k.pending.isEmpty then some (report, k) else
    let (report, k) := k.clearPending.runOnce x k.pending k.forced report
    if k.session.aborted then some (report, k.clearPending) else runRounds x rounds k report

/-- Runs until nothing is pending or a program asks to stop; nothing when that takes more than
`rounds` rounds. -/
def runUntilIdle? (k : Kernel κ σ) (x : Executor κ σ) (rounds : Nat) :
    Option (RunReport × Kernel κ σ) :=
  runRounds x rounds { k with session.aborted := false } {}

end Kernel

end Notebook
