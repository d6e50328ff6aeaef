/-
  Notebook.Graph.Order — orders that put every cell after the cells it depends on.

  `orderFrom` takes, again and again, the first cell of what remains that depends on no remaining
  cell.  What it leaves over has no such cell: it contains every cycle among the members.  Since the
  members come in registration order, the order found is the least one by registration.
-/
import Notebook.Graph.Basic

namespace Notebook

variable {α : Type} [DecidableEq α]

/-- The first of `remaining` that comes after none of them, `before` being what each comes after. -/
def firstReady? (before : α → List α) (remaining : List α) : Option α :=
  remaining.find? fun a => (before a).all fun b => !remaining.contains b

/-- Takes ready elements until none is left. -/
def orderFrom (before : α → List α) (remaining : List α) : List α :=
  match _h : firstReady? before remaining with
  | some a => a :: orderFrom before (remaining.erase a)
  | none => []
termination_by remaining.length
decreasing_by
  have hmem : a ∈ remaining := List.mem_of_find?_eq_some _h
  rw [List.length_erase_of_mem hmem]
  have := List.length_pos_of_mem hmem
  omega

namespace Graph

/-- What a table lists for a cell. -/
def listed (t : Table CellId (List CellId)) (id : CellId) : List CellId := (t.get? id).getD []

theorem listed_tabulate {ids : List CellId} {id : CellId} (f : CellId → List CellId)
    (h : id ∈ ids) : listed (.tabulate ids f) id = f id := by
  simp [listed, h]

/-- The cells of `members` in dependency order, as far as cycles allow. -/
def orderOf (g : Graph) (members : List CellId) : List CellId :=
  let before := Table.tabulate members g.parents
  orderFrom (listed before) members

end Graph

end Notebook
