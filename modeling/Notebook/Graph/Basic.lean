/-
  Notebook.Graph.Basic — the live cells and who depends on whom.

  The graph is the list of live cells in the order of their first registration.  A public name has
  at most one live definer; an edge leads from the definer of a public name to every other cell
  that reads it.  Definers, readers and edges are questions about the list of cells, so nothing has
  to be kept in step with it.
-/
import Notebook.Cell
import Notebook.Graph.Reach

namespace Notebook

/-! ## §1. The graph. -/

/-- The marker of private names when nothing else is configured. -/
def defaultPrivateMarker : String := "_"

/-- The live cells, in the order of their first registration. -/
structure Graph where
  cells : List Cell := []
  /-- The index of the next new cell. -/
  nextIndex : Nat := 0
  /-- Names that begin with this are private to their cell. -/
  privateMarker : String := defaultPrivateMarker

namespace Graph

/-- Whether `name` takes part in no dependency. -/
def isPrivate (g : Graph) (name : String) : Bool := isPrivateName g.privateMarker name

/-- The identifiers of the live cells, in registration order. -/
def ids (g : Graph) : List CellId := g.cells.map Cell.id

/-- The live cell of an identifier. -/
def cell? (g : Graph) (id : CellId) : Option Cell := g.cells.find? fun c => c.id == id

/-- Whether a cell is live. -/
def contains (g : Graph) (id : CellId) : Bool := (g.cell? id).isSome

/-- The status of a live cell. -/
def status? (g : Graph) (id : CellId) : Option CellStatus := (g.cell? id).map Cell.status

/-- The live cell that defines a public name. -/
def definer? (g : Graph) (name : String) : Option CellId :=
  if g.isPrivate name then none
  else (g.cells.find? fun c => c.defs.has name).map Cell.id

/-- Whether `a` defines a public name that the other cell `b` reads. -/
def feeds (g : Graph) (a b : Cell) : Bool :=
  a.id != b.id && a.defs.toList.any fun name => b.refs.has name && !g.isPrivate name

/-- The cells that define what `id` reads, in registration order. -/
def parents (g : Graph) (id : CellId) : List CellId :=
  match g.cell? id with
  | some c => (g.cells.filter fun p => g.feeds p c).map Cell.id
  | none => []

/-- The cells that read what `id` defines, in registration order. -/
def children (g : Graph) (id : CellId) : List CellId :=
  match g.cell? id with
  | some c => (g.cells.filter fun r => g.feeds c r).map Cell.id
  | none => []

/-- The public names that a cell reads and no live cell defines. -/
def danglingRefs (g : Graph) (id : CellId) : List String :=
  match g.cell? id with
  | some c => c.refs.toList.filter fun name => !g.isPrivate name && (g.definer? name).isNone
  | none => []

/-! ## §2. Changes. -/

/-- A registration that was refused, with each name in conflict and its live definer. -/
structure Conflict where
  cell : CellId
  names : List (String × CellId)
deriving DecidableEq, Repr

/-- The public names of `spec` that another live cell defines, with that cell. -/
def conflicts (g : Graph) (spec : CellSpec) : List (String × CellId) :=
  spec.defs.toList.filterMap fun name =>
    match g.definer? name with
    | some owner => if owner == spec.id then none else some (name, owner)
    | none => none

/-- Puts a cell into the graph.  A cell that is live already keeps its place and its status, and has
other code and names. -/
def put (g : Graph) (spec : CellSpec) : Graph :=
  if g.contains spec.id then
    { g with cells := g.cells.map fun c =>
      if c.id == spec.id then
        { c with code := spec.code, defs := spec.defs, refs := spec.refs }
      else c }
  else
    { g with
      cells := g.cells ++ [⟨spec.id, spec.code, spec.defs, spec.refs, .idle, g.nextIndex⟩]
      nextIndex := g.nextIndex + 1 }

/-- Registers a cell, or registers it anew with other code and names.  Refused, without any change,
when a public name is taken. -/
def register (g : Graph) (spec : CellSpec) : Except Conflict Graph :=
  match g.conflicts spec with
  | [] => .ok (g.put spec)
  | names => .error ⟨spec.id, names⟩

/-- Removes a cell. -/
def unregister (g : Graph) (id : CellId) : Graph :=
  { g with cells := g.cells.filter fun c => c.id != id }

/-- Sets the status of a live cell. -/
def setStatus (g : Graph) (id : CellId) (status : CellStatus) : Graph :=
  { g with cells := g.cells.map fun c => if c.id == id then { c with status } else c }

/-! ## §3. Downstream. -/

/-- The live cells among `roots` and every cell that depends on them, directly or not, in
registration order. -/
def descendants (g : Graph) (roots : OrderedSet CellId) : List CellId :=
  let found := closure g.ids g.children (g.ids.filter roots.has)
  g.ids.filter found.contains

/-- The cells that read one of `names` without being its definer.  Private names have no readers
here. -/
def readersOf (g : Graph) (names : List String) : OrderedSet CellId :=
  .ofList <| names.flatMap fun name =>
    if g.isPrivate name then [] else
      (g.cells.filter fun c => c.refs.has name && g.definer? name != some c.id).map Cell.id

/-- The cells affected, directly or not, by a change to `names`. -/
def affectedBy (g : Graph) (names : List String) : List CellId :=
  g.descendants (g.readersOf names)

/-! ## §4. Wordings. -/

/-- The wording of a refused registration. -/
def Conflict.message (c : Conflict) : String :=
  let owners := c.names.map fun (name, owner) => s!"'{name}' (already defined by {owner.text})"
  s!"{c.cell.text} redefines " ++ ", ".intercalate owners

/-- The error that a refused registration amounts to: its first name in conflict. -/
def Conflict.toError (c : Conflict) : Error :=
  match c.names with
  | (name, owner) :: _ => .multipleDefinition name [owner, c.cell]
  | [] => .multipleDefinition "" [c.cell, c.cell]

/-- The wording of a cycle that a caller asked to be ordered. -/
def cycleMessage (cycle : List CellId) : String := "cycle: " ++ joinCells " → " cycle

end Graph

end Notebook
