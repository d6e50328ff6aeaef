/-
  Notebook.Graph.Schedule — orders, cycles and plans, worked out on the edges.

  `Graph.topologicalOrder` and `Graph.plan` say what a run of some cells executes.  An indexed graph
  works it out on its edges.  For an order every cell has a counter of the edges that still lead to
  it, and a queue holds the cells whose counter is at zero, the earliest first.  For a cycle a
  search goes outward from each cell with a queue of its own, and notes for every cell which cell it
  was met from; the way back along these notes is the cycle.

  A plan is told which groups of cells reach each other.  `components` finds them by reachability.
-/
import Notebook.Graph.Index
import Notebook.Graph.Plan

namespace Notebook

/-! ## §1. Registration order. -/

/-- The place of a cell in the order of registration.  A cell that is not live comes last. -/
def Graph.place (g : Graph) (id : CellId) : Nat := ((g.cell? id).map Cell.index).getD g.nextIndex

namespace IndexedGraph

/-- Cells by their places, the earliest first. -/
def byPlace (g : IndexedGraph) (ids : List CellId) : List CellId :=
  ids.mergeSort fun a b => g.place a ≤ g.place b

/-! ## §2. Orders, by counting down edges. -/

/-- For every member, how many edges lead to it from members. -/
def counters (g : IndexedGraph) (members : OrderedSet CellId) : Table CellId Nat :=
  (members.toList.flatMap g.children).foldl (fun counters child => counters.modify child (· + 1))
    (.tabulate members.toList fun _ => 0)

/-- Whether the entry `a` of a queue comes before `b`: by its place, at one place by its number. -/
def precedes (a b : Nat × CellId) : Bool :=
  a.1 < b.1 || a.1 == b.1 && a.2.number ≤ b.2.number

/-- Puts an entry into a queue. -/
def enqueue (entry : Nat × CellId) : List (Nat × CellId) → List (Nat × CellId)
  | [] => [entry]
  | first :: rest =>
    if precedes entry first then entry :: first :: rest else first :: enqueue entry rest

/-- Puts several cells into a queue, each with its place. -/
def enqueueAll (g : IndexedGraph) (ids : List CellId) (ready : List (Nat × CellId)) :
    List (Nat × CellId) := ids.foldl (fun ready id => enqueue (g.place id, id) ready) ready

/-- Counts down one edge to each child.  A member that no edge is left for joins the queue. -/
def countDown (g : IndexedGraph) : (children : List CellId) → Table CellId Nat →
    List (Nat × CellId) → Table CellId Nat × List (Nat × CellId)
  | [], counters, ready => (counters, ready)
  | child :: rest, counters, ready =>
    match counters.get? child with
    | some 1 => g.countDown rest (counters.insert child 0) (enqueue (g.place child, child) ready)
    | some (left + 2) => g.countDown rest (counters.insert child (left + 1)) ready
    -- not a member; a counter at zero is not met here, since an edge to count down is left
    | _ => g.countDown rest counters ready

theorem length_enqueue (entry : Nat × CellId) (ready : List (Nat × CellId)) :
    (enqueue entry ready).length = ready.length + 1 := by
  induction ready with
  | nil => rfl
  | cons first rest ih =>
    unfold enqueue
    split
    · rfl
    · rw [List.length_cons, ih, List.length_cons]

/-- What is left to count down, together with what is queued, does not grow. -/
theorem total_countDown_le (g : IndexedGraph) (children : List CellId)
    (counters : Table CellId Nat) (ready : List (Nat × CellId)) :
    (g.countDown children counters ready).1.total id +
        (g.countDown children counters ready).2.length ≤
      counters.total id + ready.length := by
  fun_induction g.countDown children counters ready with
  | case1 => exact Nat.le_refl _
  | case2 child rest counters ready hone ih =>
    have htotal := Table.total_insert id 0 hone
    rw [length_enqueue] at ih
    simp only [id_eq] at htotal
    omega
  | case3 child rest counters ready left hleft ih =>
    have htotal := Table.total_insert id (left + 1) hleft
    simp only [id_eq] at htotal
    omega
  | case4 child rest counters ready _ _ ih => exact ih

/-- Takes the earliest ready cell and counts down its edges, until no cell is ready. -/
def drain (g : IndexedGraph) (counters : Table CellId Nat) : List (Nat × CellId) → List CellId
  | [] => []
  | (_, id) :: rest =>
    let next := g.countDown (g.children id) counters rest
    id :: g.drain next.1 next.2
termination_by ready => counters.total id + ready.length
decreasing_by
  have hle := g.total_countDown_le (g.children id) counters rest
  simp only [List.length_cons]
  omega

/-- The members in dependency order, as far as cycles allow. -/
def order (g : IndexedGraph) (members : OrderedSet CellId) : List CellId :=
  let counters := g.counters members
  g.drain counters
    (g.enqueueAll (members.toList.filter fun id => counters.get? id == some 0) [])

/-! ## §3. Cycles, by searching outward. -/

/-- What a search has found so far. -/
structure Search where
  /-- For each cell that was met, the cell that it was met from. -/
  metFrom : Table CellId CellId
  /-- The cells whose children were not looked at yet. -/
  queue : List CellId

/-- Looks at the children of `current` inside `nodes`, and tells whether `start` is among them; the
search is over as soon as it is. -/
def look (nodes : OrderedSet CellId) (start current : CellId) :
    (children : List CellId) → Search → Bool × Search
  | [], s => (false, s)
  | child :: rest, s =>
    if !nodes.has child then look nodes start current rest s
    else if child == start then (true, s)
    else if s.metFrom.contains child then look nodes start current rest s
    else look nodes start current rest ⟨s.metFrom.insert child current, s.queue ++ [child]⟩

/-- The nodes that were not met. -/
def unmet (nodes : OrderedSet CellId) (metFrom : Table CellId CellId) : List CellId :=
  nodes.toList.filter fun a => !metFrom.contains a

theorem length_unmet_insert {nodes : OrderedSet CellId} {metFrom : Table CellId CellId}
    {child : CellId} (hnode : nodes.has child = true) (hunmet : metFrom.contains child = false)
    (current : CellId) :
    (unmet nodes (metFrom.insert child current)).length < (unmet nodes metFrom).length := by
  have hsub : unmet nodes (metFrom.insert child current) =
      (unmet nodes metFrom).filter fun a => a != child := by
    unfold unmet
    rw [List.filter_filter]
    refine List.filter_congr fun a _ => ?_
    unfold Table.contains
    rw [Table.get?_insert]
    by_cases ha : a = child <;> simp [ha]
  rw [hsub]
  refine List.length_filter_lt_length_iff_exists.2 ⟨child, ?_, by simp⟩
  exact List.mem_filter.2 ⟨(OrderedSet.mem_iff nodes child).1 hnode, by simp [hunmet]⟩

/-- A cell that joins the queue is one that is not unmet any more. -/
theorem length_look_le (nodes : OrderedSet CellId) (start current : CellId)
    (children : List CellId) (s : Search) :
    (unmet nodes (look nodes start current children s).2.metFrom).length +
        (look nodes start current children s).2.queue.length ≤
      (unmet nodes s.metFrom).length + s.queue.length := by
  fun_induction look nodes start current children s with
  | case1 => exact Nat.le_refl _
  | case2 _ _ _ _ ih => exact ih
  | case3 => exact Nat.le_refl _
  | case4 _ _ _ _ _ _ ih => exact ih
  | case5 child rest s hnode hstart hmet ih =>
    have hlt := length_unmet_insert (by simpa using hnode) (by simpa using hmet) current
    simp only [List.length_append, List.length_singleton] at ih
    omega

/-- Searches outward for a cell that leads back to `start`, and returns it with the notes. -/
def search (g : IndexedGraph) (nodes : OrderedSet CellId) (start : CellId)
    (metFrom : Table CellId CellId) : (queue : List CellId) → Option (CellId × Table CellId CellId)
  | [] => none
  | current :: rest =>
    let looked := look nodes start current (g.children current) ⟨metFrom, rest⟩
    if looked.1 then some (current, looked.2.metFrom)
    else g.search nodes start looked.2.metFrom looked.2.queue
termination_by queue => (unmet nodes metFrom).length + queue.length
decreasing_by
  have hle := length_look_le nodes start current (g.children current) ⟨metFrom, rest⟩
  simp only [List.length_cons] at hle ⊢
  omega

/-- The way from `cell` back to `start`; each step leads to a cell that was met earlier, so there
are at most as many as there are notes. -/
def wayBack (metFrom : Table CellId CellId) (start : CellId) :
    (steps : Nat) → (cell : CellId) → List CellId
  | 0, cell => [cell]
  | steps + 1, cell =>
    if cell == start then [cell]
    else
      match metFrom.get? cell with
      | some before => cell :: wayBack metFrom start steps before
      | none => [cell]

/-- The cycle through `start` that the search meets first. -/
def cycleFrom? (g : IndexedGraph) (nodes : OrderedSet CellId) (start : CellId) :
    Option (List CellId) :=
  (g.search nodes start .empty [start]).map fun (closing, metFrom) =>
    (wayBack metFrom start metFrom.size closing).reverse

/-- The shorter of two cycles, the first one if they are equally long. -/
def shorter (best cycle : Option (List CellId)) : Option (List CellId) :=
  match best, cycle with
  | best, none => best
  | none, cycle => cycle
  | some xs, some ys => if ys.length < xs.length then some ys else some xs

/-- A shortest cycle inside `nodes`, beginning with its earliest cell. -/
def minimalCycle (g : IndexedGraph) (nodes : OrderedSet CellId) : Option (List CellId) :=
  (g.byPlace nodes.toList).foldl (fun best start => shorter best (g.cycleFrom? nodes start)) none

/-! ## §4. Running some cells. -/

/-- The live roots and their descendants in dependency order; a shortest cycle among them when there
is one. -/
def topologicalOrder (g : IndexedGraph) (roots : OrderedSet CellId) :
    Except (List CellId) (List CellId) :=
  let members := g.reachedFrom roots
  let order := g.order members
  if order.length < members.size then
    .error ((g.minimalCycle (members.diff (.ofList order))).getD [])
  else .ok order

/-- The groups of cells that reach each other. -/
def components (g : IndexedGraph) : List (List CellId) :=
  let reached := Table.tabulate g.nodes.toList fun id => g.reachedFrom (.ofList [id])
  let reaches := fun a b => ((reached.get? a).getD .empty).has b
  g.nodes.toList.foldl (fun groups id =>
    if groups.any fun group => group.contains id then groups
    else groups ++ [g.nodes.toList.filter fun other => reaches id other && reaches other id]) []

/-- The place of the earliest cell. -/
def earliest (g : IndexedGraph) (ids : OrderedSet CellId) : Nat :=
  ((ids.toList.map g.place).min?).getD 0

/-- The components of several cells that `members` meet, the one with the earliest cell first. -/
def cyclicGroups (g : IndexedGraph) (components : List (List CellId))
    (members : OrderedSet CellId) : List (OrderedSet CellId) :=
  ((((components.filter fun ids => 1 < ids.length).map OrderedSet.ofList).filter fun ids =>
      ids.toList.any members.has)).mergeSort fun a b => g.earliest a ≤ g.earliest b

/-- Blocks a cell for a reason, unless it is blocked already. -/
def block (blocked : List (CellId × BlockReason)) (entry : CellId × BlockReason) :
    List (CellId × BlockReason) :=
  if blocked.any fun e => e.1 == entry.1 then blocked else blocked ++ [entry]

/-- The cells below a cycle that `members` meet, each with a blocked cell above it: cell by cell,
and for each cell the earliest origin first. -/
def downstream (g : IndexedGraph) (members : OrderedSet CellId)
    (blocked : List (CellId × BlockReason)) : List (CellId × CellId) :=
  ((blocked.map (·.1)).flatMap fun origin =>
    ((g.reachedFrom (.ofList [origin])).toList.filter fun id =>
      members.has id && !blocked.any fun e => e.1 == id).map fun id => (id, origin)).mergeSort
    fun a b => g.place a.1 < g.place b.1 ||
      g.place a.1 == g.place b.1 && g.place a.2 ≤ g.place b.2

/-- The plan of a run that starts at `roots`, when the groups of cells that reach each other are
`components`. -/
def planWith (g : IndexedGraph) (components : List (List CellId)) (roots : OrderedSet CellId) :
    Plan :=
  let members := g.reachedFrom roots
  let groups := g.cyclicGroups components members
  let cycles := groups.map fun group => (g.minimalCycle group).getD []
  let inCycle := ((groups.zip cycles).flatMap fun (group, cycle) =>
    (g.byPlace group.toList).map fun id => (id, BlockReason.inCycle cycle)).foldl block []
  let blocked := ((g.downstream members inCycle).map fun (id, origin) =>
    (id, BlockReason.downstreamOf origin)).foldl block inCycle
  { order := g.order (members.diff (.ofList (blocked.map (·.1))))
    cycles
    blocked }

/-- The plan of a run that starts at `roots`. -/
def plan (g : IndexedGraph) (roots : OrderedSet CellId) : Plan := g.planWith g.components roots

end IndexedGraph

end Notebook
