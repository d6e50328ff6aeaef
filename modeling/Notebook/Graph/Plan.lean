/-
  Notebook.Graph.Plan — what a run of some cells will execute, and what it cannot.

  A run covers its live roots and everything downstream.  Cells on a cycle are blocked, each with
  the reported cycle of its group; cells below a cycle are blocked with the earliest cell on a
  cycle that they depend on.  The others are ordered.
-/
import Notebook.Graph.Cycle

namespace Notebook

/-- Why a cell of a run cannot execute. -/
inductive BlockReason where
  /-- It lies on a cycle. -/
  | inCycle (cycle : List CellId)
  /-- It depends on a cell that lies on a cycle. -/
  | downstreamOf (cell : CellId)
deriving DecidableEq, Repr

/-- What a run will do: the cells it executes in order, the cycles it met, and the cells that it
cannot execute. -/
structure Plan where
  order : List CellId
  cycles : List (List CellId)
  blocked : List (CellId × BlockReason)
deriving DecidableEq, Repr

namespace Plan

/-- Whether the run has no cells. -/
def isEmpty (p : Plan) : Bool := p.order.isEmpty && p.blocked.isEmpty

end Plan

namespace Graph

/-- The plan of a run that starts at `roots`. -/
def plan (g : Graph) (roots : OrderedSet CellId) : Plan :=
  let members := g.descendants roots
  let below := g.below
  let groups := cyclicComponents (listed below) g.ids members
  let cycles := groups.map g.shortestCycle
  let inCycle := (groups.zip cycles).flatMap fun (group, cycle) =>
    group.map fun id => (id, BlockReason.inCycle cycle)
  let cyclic := g.ids.filter fun id => groups.any fun group => group.contains id
  let downstream := members.filterMap fun id =>
    if cyclic.contains id then none
    else (cyclic.find? fun origin => (listed below origin).contains id).map fun origin =>
      (id, BlockReason.downstreamOf origin)
  let blocked := inCycle ++ downstream
  let barred := blocked.map (·.1)
  { order := g.orderOf (members.filter fun id => !barred.contains id)
    cycles
    blocked }

end Graph

end Notebook
