/-
  Notebook.Script.Interpreter — running scripts.

  A name stands for a variable of the script, or else for an input of the cell.  A statement that
  fails ends the script with its message, unless it is marked as tried: then the message goes to the
  log and the script goes on.  Whatever scripts log is kept in a journal, which also counts the
  runs: from a certain run on, every run first asks the kernel to stop, so that cells which keep
  each other going come to an end.
-/
import Notebook.Script.Statement
import Notebook.Session.Executor

namespace Notebook.Script

/-! ## §1. What scripts keep. -/

/-- What scripts leave behind besides their outputs. -/
structure Journal where
  /-- The entries, the newest first. -/
  log : List Json := []
  /-- How many cells were run. -/
  runs : Nat := 0
  /-- The cells that scripts asked to register. -/
  registered : OrderedSet CellId := .empty

/-- How many runs go by before every further one asks to stop. -/
def maxRuns : Nat := 200

/-- What an observer does, and what its script knew when it was left. -/
structure Observer where
  body : List Json
  request : Request
  vars : Table String Binding

/-- How far a script has come. -/
structure Progress where
  vars : Table String Binding := .empty
  output : CellOutput := {}

/-- What a script knows from outside. -/
structure Scene where
  request : Request
  /-- What an observer is told; null in a cell. -/
  patch : Json := .null

/-- A program of a script that may fail with a message. -/
abbrev Action (α : Type) := ExceptT String (Program Observer Journal) α

/-- A call to the session. -/
def call (c : Call Observer Journal) : Action c.Reply := ExceptT.lift (Program.perform c)

/-- Goes on with a reply, or fails with the message of an error. -/
def orFail {α : Type} : Except Error α → Action α
  | .ok a => pure a
  | .error e => throw e.message

/-- Adds an entry to the log. -/
def note (entry : Json) : Action Unit := do
  let _ ← call (.own fun j => { j with log := entry :: j.log })

/-- A log entry with one field. -/
def noteField (key : String) (value : Json) : Action Unit := note (.object [(key, value)])

/-! ## §2. Names and values. -/

/-- What a name stands for. -/
def binding? (scene : Scene) (p : Progress) (name : String) : Option Binding :=
  (p.vars.get? name) <|> (scene.request.inputs.get? name)

/-- What a name stands for; an unknown name is a failure. -/
def bindingOf (scene : Scene) (p : Progress) (name : String) : Action Binding :=
  match binding? scene p name with
  | some b => pure b
  | none => throw ("unbound: " ++ name)

/-- The value of a binding: that of an element or a state is the current one, null when it is
gone. -/
def valueOf : Binding → Action Json
  | .value v => pure v
  | .element id => do return (← call (.elementValue id)).getD .null
  | .state id => do return (← call (.readState id)).getD .null
  | .watch id => pure (.string id.text)
  | .model id => pure (.string id.text)
  | .opaqueValue typeName => pure (.string typeName)

/-- Adds up the integers among what names stand for. -/
def sumOf (scene : Scene) (p : Progress) : List String → Int → Action Int
  | [], total => pure total
  | name :: rest, total =>
    match binding? scene p name with
    | none => sumOf scene p rest total
    | some b => do
      let v ← valueOf b
      sumOf scene p rest (wrap (total + (integer? v).getD 0))

/-- The value that a statement takes. -/
def evaluate (scene : Scene) (p : Progress) : Source → Action Json
  | .reference name => do valueOf (← bindingOf scene p name)
  | .sum names start => do return .int (← sumOf scene p names start)
  | .patch key => pure (if key.isEmpty then scene.patch else (scene.patch.field? key).getD .null)
  | .literal v => pure v

/-! ## §3. Watched paths. -/

/-- Paths as a value. -/
def pathsToJson (paths : List Path) : Json := .strings (paths.map Path.text)

/-- Does with the handle of a watch what is wanted. -/
def useHandle {κ σ : Type} (id : WatchId) (kind : WatchKind) (use : HandleUse) :
    Program κ σ (Except Error Json) := do
  match ← Program.perform (.handle id kind) with
  | none => return .error (.execution ("no handle: " ++ id.text))
  | some h =>
    match use, kind with
    | .readText, _ => return (← Program.perform (.readText h)).map .string
    | .readBytes, _ =>
      return (← Program.perform (.readBytes h)).map fun bytes =>
        .array (bytes.map fun b => .nat b.toNat)
    | .writeText text, _ => return (← Program.perform (.writeText h text)).map fun _ => .null
    | .pathExists, .file => return (← Program.perform (.fileExists h)).map .bool
    | .pathExists, .directory => return (← Program.perform (.directoryExists h)).map .bool
    | .entries, _ => return (← Program.perform (.entries h)).map pathsToJson
    | .walk, _ => return (← Program.perform (.walk h)).map pathsToJson
    | .describe, _ =>
      return .ok (.array [.nat h.id.number, .string h.path.text, h.creator.toJson])

/-! ## §4. Statements. -/

/-- Gives a variable a binding, if there is one. -/
def Progress.assign (p : Progress) (var : Option String) (b : Binding) : Progress :=
  match var with
  | some var => { p with vars := p.vars.insert var b }
  | none => p

/-- Binds a name in the output. -/
def Progress.bind (p : Progress) (name : String) (b : Binding) : Progress :=
  { p with output := { p.output with bindings := p.output.bindings.insert name b } }

/-- A request as a value. -/
def requestToJson (r : Request) : Json :=
  .object [("cell", r.cell.toJson), ("code", .string r.code), ("inputs", bindingsToJson r.inputs),
    ("missing", .strings r.missing)]

/-- The element that a parent stands for. -/
def parentOf (scene : Scene) (p : Progress) : ParentRef → Action ElementId
  | .literal id => pure id
  | .reference name => do
    match ← bindingOf scene p name with
    | .element id => pure id
    | _ => throw "not an element"

/-- The message of what is no statement. -/
def badScript : String := "bad script"

/-- The place that a placement stands for.  The parent is looked up before the lens matters. -/
def placeOf (scene : Scene) (p : Progress) (placement : Placement) : Action (ElementId × Lens) := do
  let parent ← parentOf scene p placement.parent
  match placement.lens with
  | some lens => return (parent, lens)
  | none => throw badScript

/-- The cells that an event asks to register. -/
def registeredBy : Event → List CellId
  | .register specs => specs.map CellSpec.id
  | _ => []

variable [HashFunction]

/-- Runs a statement. -/
def execute (scene : Scene) (p : Progress) : Statement → Action Progress
  | .bind name source => do return p.bind name (.value (← evaluate scene p source))
  | .bindReference name reference => do return p.bind name (← bindingOf scene p reference)
  | .declare var b => pure (p.assign (some var) b)
  | .display source => do
    let v ← evaluate scene p source
    return { p with output := { p.output with display := some v } }
  | .describeInputs name => pure (p.bind name (.value (requestToJson scene.request)))
  | .fail text => throw text
  | .failIf reference expected text => do
    let v ← valueOf (← bindingOf scene p reference)
    if v.same expected then throw (text.getD badScript) else return p
  | .effect text => do
    orFail (← call (.recordEffect text))
    return p
  | .element var kind placement source => do
    let place ← placement.mapM (placeOf scene p)
    let value ← evaluate scene p source
    let id ← orFail (← call (.createElement place kind value))
    return p.assign var (.element id)
  | .state var source => do
    let id ← orFail (← call (.createState (← evaluate scene p source)))
    return p.assign var (.state id)
  | .setState reference source => do
    match ← bindingOf scene p reference with
    | .state id =>
      orFail (← call (.writeState id (← evaluate scene p source)))
      return p
    | _ => throw "not a state"
  | .model model var => do
    orFail (← call (.bindModel model))
    return p.assign var (.model model)
  | .link child parent => do
    let _ ← call (.linkModel child parent)
    return p
  | .observe model body => do
    orFail (← call (.observeModel model ⟨body, scene.request, p.vars⟩))
    return p
  | .watch path kind var => do
    let h ← orFail (← call (.watch path kind))
    return p.assign var (.watch h.id)
  | .watched reference kind use name => do
    match ← bindingOf scene p reference with
    | .watch id =>
      let v ← orFail (← ExceptT.lift (useHandle id kind use))
      match name with
      | some name => return p.bind name (.value v)
      | none => return p
    | _ => throw "not a watch"
  | .send event => do
    let _ ← call (.own fun j => { j with registered := j.registered.addAll (registeredBy event) })
    let _ ← call (.send event)
    noteField "sent" (.bool true)
    return p
  | .abort => do
    let _ ← call .abort
    return p
  | .memoize scope key name value => do
    let served ← call (.memoize scope (.content (.ofText key)) (.ok value))
    if served.computed then noteField "computed" (.string key)
    return p.bind name (.value (← orFail served.result))
  | .log source => do
    noteField "log" (← evaluate scene p source)
    return p
  | .logCurrentCell => do
    noteField "current" (.ofOption CellId.toJson (← call .currentCell))
    return p

/-- Runs an item of a script. -/
def executeItem (scene : Scene) (p : Progress) (item : Json) : Action Progress := do
  let attempt : Action Progress :=
    match Statement.ofJson? item with
    | some s => execute scene p s
    | none => throw badScript
  match item.field? "try" with
  | some (.bool true) =>
    tryCatch attempt fun text => do
      noteField "caught" (.string text)
      return p
  | _ => attempt

/-- Runs the items of a script in turn. -/
def executeAll (scene : Scene) : List Json → Progress → Action Progress
  | [], p => pure p
  | item :: rest, p => do executeAll scene rest (← executeItem scene p item)

/-! ## §5. Cells and observers. -/

/-- Runs a cell with the script of its code. -/
def runCell (scripts : Table String Json) (r : Request) : Action CellOutput := do
  let journal ← call (.own fun j => { j with runs := j.runs + 1 })
  if maxRuns < journal.runs then
    let _ ← call .abort
  note (.object [("call", r.cell.toJson), ("code", .string r.code)])
  match scripts.get? r.code with
  | none => throw ("no script for " ++ r.code)
  | some script =>
    match statements? script with
    | none => throw badScript
    | some items => return (← executeAll ⟨r, .null⟩ items {}).output

/-- Runs an observer and logs how that ended. -/
def runObserver (o : Observer) (patch : Json) :
    Program Observer Journal (Except Error Unit) := do
  let outcome ← (executeAll ⟨o.request, patch⟩ o.body { vars := o.vars }).run
  let error : Option String := match outcome with
    | .ok _ => none
    | .error text => some text
  let _ ← (do
    let current ← call .currentCell
    note (.object [("observer", .ofOption CellId.toJson current),
      ("error", .ofOption failureToJson error)]) : Action Unit).run
  match error with
  | none => return .ok ()
  | some text => return .error (.execution text)

/-- What runs cells whose code names a script. -/
def executor (scripts : Table String Json) : Executor Observer Journal where
  execute r := (runCell scripts r).run
  observe := runObserver

end Notebook.Script
