/-
  Notebook.Graph.Cycle — shortest cycles, and the cells that lie on cycles.

  From each start the search goes outward level by level, keeping one path to each cell it meets;
  the first path, in the order of the level, whose end leads back to the start closes a shortest
  cycle through it.  Of the cycles of all starts, tried in registration order, the first shortest
  one is reported, so a reported cycle begins with its earliest member.
-/
import Notebook.Graph.Order

namespace Notebook

/-! ## §1. Breadth-first search for a closing path. -/

section Search

variable {α : Type} [DecidableEq α]

/-- Extends each path, last element first, by the steps from its end to what was not met before.
Returns the new paths in order and all elements met. -/
def nextLevel (pool : List α) (next : α → List α) :
    (paths : List (List α)) → (met : List α) → List (List α) × List α
  | [], met => ([], met)
  | [] :: rest, met => nextLevel pool next rest met
  | (last :: before) :: rest, met =>
    let fresh := freshSteps pool next met last
    let (later, met) := nextLevel pool next rest (met ++ fresh)
    (fresh.map (fun b => b :: last :: before) ++ later, met)

/-- Searches level by level for a path from `start` whose end leads back to it; at most `levels`
levels.  Paths are written last element first. -/
def closingPath? (pool : List α) (next : α → List α) (start : α) :
    (levels : Nat) → (paths : List (List α)) → (met : List α) → Option (List α)
  | 0, _, _ => none
  | levels + 1, paths, met =>
    match paths.find? fun path => path.head?.any fun last => (next last).contains start with
    | some path => some path.reverse
    | none =>
      let (paths, met) := nextLevel pool next paths met
      closingPath? pool next start levels paths met

/-- A shortest cycle through `start` inside `pool`, beginning with it.  No path without repetition
is longer than the pool. -/
def cycleThrough? (pool : List α) (next : α → List α) (start : α) : Option (List α) :=
  closingPath? pool next start pool.length [[start]] [start]

/-- The first of the shortest lists. -/
def firstShortest : List (List α) → Option (List α)
  | [] => none
  | xs :: rest =>
    match firstShortest rest with
    | some ys => if ys.length < xs.length then some ys else some xs
    | none => some xs

/-- A shortest cycle inside `pool`, beginning as early in the pool as a shortest cycle can. -/
def shortestCycle? (pool : List α) (next : α → List α) : Option (List α) :=
  firstShortest (pool.filterMap (cycleThrough? pool next))

end Search

namespace Graph

/-! ## §2. Cycles of cells. -/

/-- A shortest cycle among `members`, which come in registration order. -/
def shortestCycle (g : Graph) (members : List CellId) : List CellId :=
  let next := Table.tabulate members g.children
  (shortestCycle? members (listed next)).getD []

/-- For every live cell the cells that it reaches by at least one edge. -/
def below (g : Graph) : Table CellId (List CellId) :=
  let next := Table.tabulate g.ids g.children
  Table.tabulate g.ids fun id => closure g.ids (listed next) (listed next id)

/-- Whether a cell lies on a cycle, `below` being the cells that each cell reaches. -/
def onCycle (below : CellId → List CellId) (id : CellId) : Bool := (below id).contains id

/-- The cells of `ids` that lie on a cycle together with `id`. -/
def component (below : CellId → List CellId) (ids : List CellId) (id : CellId) : List CellId :=
  let reached := below id
  ids.filter fun other => reached.contains other && (below other).contains id

/-- The groups of cells of `ids` that lie on cycles together, for the cells of `members`: a group
comes where its first member stands. -/
def cyclicComponents (below : CellId → List CellId) (ids : List CellId) :
    (members : List CellId) → List (List CellId)
  | [] => []
  | id :: rest =>
    let later := cyclicComponents below ids rest
    if onCycle below id then
      let own := component below ids id
      own :: later.filter fun other => !other.contains id
    else later

/-- The members in dependency order; a shortest cycle among them when there is one. -/
def topologicalOrder (g : Graph) (roots : OrderedSet CellId) :
    Except (List CellId) (List CellId) :=
  let members := g.descendants roots
  let order := g.orderOf members
  if order.length < members.length then
    .error (g.shortestCycle (members.filter fun id => !order.contains id))
  else .ok order

end Graph

end Notebook
