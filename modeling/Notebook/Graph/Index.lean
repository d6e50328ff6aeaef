/-
  Notebook.Graph.Index — the graph with indices that are kept up to date.

  Which cell defines a name, which cells read it, and which cells depend on each other can be found
  by going through all live cells.  An indexed graph looks it up instead: it has a table of
  definers, a table of readers, and a multigraph of nodes and edges, and every change updates just
  what it concerns.  What a change of names affects is remembered until the names of some cell
  change.
-/
import Notebook.Graph.Basic

namespace Notebook

/-! ## §1. The indices. -/

/-- The live cells with their indices. -/
structure IndexedGraph extends Graph where
  /-- The cell that defines each public name. -/
  definers : Table String CellId := .empty
  /-- The cells that read each public name. -/
  readers : Table String (OrderedSet CellId) := .empty
  /-- The nodes of the multigraph. -/
  nodes : OrderedSet CellId := .empty
  /-- The edges of the multigraph, each as often as it was added. -/
  edges : List (CellId × CellId) := []
  /-- What is affected by the names that were asked for. -/
  affected : List (List String × OrderedSet CellId) := []

namespace IndexedGraph

/-- The live cell that defines a public name. -/
def definerOf? (g : IndexedGraph) (name : String) : Option CellId := g.definers.get? name

/-- The live cells that read a public name. -/
def readersOfName (g : IndexedGraph) (name : String) : OrderedSet CellId :=
  (g.readers.get? name).getD .empty

/-- The public names among `names`, in order. -/
def publicNames (g : IndexedGraph) (names : OrderedSet String) : List String :=
  names.toList.filter fun name => !g.isPrivate name

/-! ## §2. Keeping the indices. -/

/-- Enters the definer of some names. -/
def enterDefiner (id : CellId) (definers : Table String CellId) (names : List String) :
    Table String CellId := names.foldl (fun t name => t.insert name id) definers

/-- Enters a reader of some names. -/
def enterReader (id : CellId) (readers : Table String (OrderedSet CellId)) (names : List String) :
    Table String (OrderedSet CellId) :=
  names.foldl (fun t name => t.insert name (((t.get? name).getD .empty).add id)) readers

/-- Strikes out the names that a cell is the definer of. -/
def strikeDefiner (id : CellId) (definers : Table String CellId) (names : List String) :
    Table String CellId :=
  names.foldl (fun t name => if t.get? name = some id then t.erase name else t) definers

/-- Strikes out a reader of a name.  A name without readers has no entry. -/
def strikeReaderOf (id : CellId) (readers : Table String (OrderedSet CellId)) (name : String) :
    Table String (OrderedSet CellId) :=
  match readers.get? name with
  | some cells =>
    if (cells.remove id).isEmpty then readers.erase name
    else readers.insert name (cells.remove id)
  | none => readers

/-- Strikes out a reader of some names. -/
def strikeReader (id : CellId) (readers : Table String (OrderedSet CellId))
    (names : List String) : Table String (OrderedSet CellId) :=
  names.foldl (strikeReaderOf id) readers

/-- Enters the public names of a cell. -/
def index (g : IndexedGraph) (id : CellId) (defs refs : OrderedSet String) : IndexedGraph :=
  { g with
    definers := enterDefiner id g.definers (g.publicNames defs)
    readers := enterReader id g.readers (g.publicNames refs) }

/-- Strikes out the names of a cell. -/
def unindex (g : IndexedGraph) (c : Cell) : IndexedGraph :=
  { g with
    definers := strikeDefiner c.id g.definers c.defs.toList
    readers := strikeReader c.id g.readers c.refs.toList }

/-- Strikes out the names of a cell, if it is live. -/
def struckOut (g : IndexedGraph) (id : CellId) : IndexedGraph :=
  match g.cell? id with
  | some c => g.unindex c
  | none => g

/-- The edges without those that touch a cell. -/
def edgesWithout (g : IndexedGraph) (id : CellId) : List (CellId × CellId) :=
  g.edges.filter fun e => e.1 != id && e.2 != id

/-- Adds an edge that is not there yet. -/
def updateEdge (edges : List (CellId × CellId)) (e : CellId × CellId) : List (CellId × CellId) :=
  if e ∈ edges then edges else edges ++ [e]

/-- The edges that the names of a cell call for, according to the other indices: for each name that
it reads the one from the definer, and for each name that it defines those to the readers. -/
def edgesOf (g : IndexedGraph) (id : CellId) (defs refs : OrderedSet String) :
    List (CellId × CellId) :=
  ((g.publicNames refs).filterMap fun name =>
    match g.definerOf? name with
    | some definer => if definer == id then none else some (definer, id)
    | none => none) ++
  (g.publicNames defs).flatMap fun name =>
    ((g.readersOfName name).toList.filter fun reader => reader != id).map fun reader => (id, reader)

/-- Draws the edges of a cell anew. -/
def rewire (g : IndexedGraph) (id : CellId) (defs refs : OrderedSet String) : IndexedGraph :=
  { g with
    nodes := g.nodes.add id
    edges := (g.edgesOf id defs refs).foldl updateEdge (g.edgesWithout id) }

/-! ## §3. Changes. -/

/-- The public names of `spec` that another cell defines, with that cell. -/
def conflicts (g : IndexedGraph) (spec : CellSpec) : List (String × CellId) :=
  (g.publicNames spec.defs).filterMap fun name =>
    match g.definerOf? name with
    | some owner => if owner == spec.id then none else some (name, owner)
    | none => none

/-- Registers a cell, or registers it anew with other code and names.  Refused, without any change,
when a public name is taken. -/
def register (g : IndexedGraph) (spec : CellSpec) : Except Graph.Conflict IndexedGraph :=
  match g.conflicts spec with
  | [] =>
    let g := { g.struckOut spec.id with toGraph := g.toGraph.put spec }
    let g := (g.index spec.id spec.defs spec.refs).rewire spec.id spec.defs spec.refs
    .ok { g with affected := [] }
  | names => .error ⟨spec.id, names⟩

/-- Removes a live cell with every edge that touches it. -/
def unregister (g : IndexedGraph) (id : CellId) : IndexedGraph :=
  if g.contains id then
    { g.struckOut id with
      toGraph := g.toGraph.unregister id
      nodes := g.nodes.remove id
      edges := g.edgesWithout id
      affected := [] }
  else g

/-- Sets the status of a live cell. -/
def setStatus (g : IndexedGraph) (id : CellId) (status : CellStatus) : IndexedGraph :=
  { g with toGraph := g.toGraph.setStatus id status }

/-! ## §4. Neighbours, and what lies downstream. -/

/-- The cells that an edge comes from, in registration order. -/
def parents (g : IndexedGraph) (id : CellId) : List CellId :=
  g.ids.filter fun a => (a, id) ∈ g.edges

/-- The cells that an edge leads to, in registration order. -/
def children (g : IndexedGraph) (id : CellId) : List CellId :=
  g.ids.filter fun b => (id, b) ∈ g.edges

/-- The cells that an edge leads to. -/
def targets (g : IndexedGraph) (id : CellId) : List CellId :=
  (g.edges.filter fun e => e.1 == id).map (·.2)

/-- The live cells among `roots` and every cell that the edges lead to from there. -/
def reachedFrom (g : IndexedGraph) (roots : OrderedSet CellId) : OrderedSet CellId :=
  .ofList (closure g.nodes.toList g.targets (roots.toList.filter g.contains))

/-- The cells that read one of `names` without being its definer. -/
def readersOf (g : IndexedGraph) (names : OrderedSet String) : OrderedSet CellId :=
  .ofList <| (g.publicNames names).flatMap fun name =>
    (g.readersOfName name).toList.filter fun reader => g.definerOf? name != some reader

/-- The cells affected, directly or not, by a change to `names`; remembered for the next time. -/
def affectedBy (g : IndexedGraph) (names : OrderedSet String) :
    OrderedSet CellId × IndexedGraph :=
  match g.affected.find? fun e => e.1 == names.toList with
  | some (_, found) => (found, g)
  | none =>
    let found := g.reachedFrom (g.readersOf names)
    (found, { g with affected := (names.toList, found) :: g.affected })

/-! ## §5. Changes, one after another. -/

/-- What can be done to a graph. -/
inductive Change where
  | register (spec : CellSpec)
  | unregister (id : CellId)
  | setStatus (id : CellId) (status : CellStatus)
  /-- Ask what some names affect. -/
  | affectedBy (names : OrderedSet String)

/-- Carries out one change.  A registration that is refused changes nothing. -/
def change (g : IndexedGraph) : Change → IndexedGraph
  | .register spec => (g.register spec).toOption.getD g
  | .unregister id => g.unregister id
  | .setStatus id status => g.setStatus id status
  | .affectedBy names => (g.affectedBy names).2

/-- Carries out changes, one after another. -/
def changeAll (g : IndexedGraph) (changes : List Change) : IndexedGraph := changes.foldl change g

end IndexedGraph

end Notebook
