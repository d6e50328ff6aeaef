/-
  Notebook.Model.Walk — owners and orphans, found without counting steps.

  `ModelTable.owner?` goes up as many steps as there are bindings, and `ModelTable.prune` takes as
  many rounds.  Nothing has to be counted: the way up ends where a model comes up again that was
  seen already, and pruning ends with the first round that finds no orphan.
-/
import Notebook.Graph.Reach
import Notebook.Model

namespace Notebook.ModelTable

variable {κ : Type}

/-- The first directly bound cell on the way up, which ends at a model that was seen. -/
def ownerUp (t : ModelTable κ) (seen : List ModelId) (model : ModelId) : Option CellId :=
  if model ∈ seen then none
  else
    match _h : t.bindings.get? model with
    | none => none
    | some binding =>
      match binding.cell, binding.parent with
      | some cell, _ => some cell
      | none, some parent => t.ownerUp (seen ++ [model]) parent
      | none, none => none
termination_by (unseen t.bindings.keys seen).length
decreasing_by
  have hmem : model ∈ t.bindings.keys := by
    rw [Table.mem_keys_iff, ‹t.bindings.get? model = some binding›]
    rfl
  exact unseen_append_lt hmem ‹_› (List.mem_singleton_self model)

/-- A round that finds an orphan leaves fewer bindings. -/
theorem size_drop_lt {t : ModelTable κ} {m : ModelId} {models : List ModelId}
    (hmem : m ∈ models) (hbound : m ∈ t.bindings.keys) :
    (t.drop models).bindings.size < t.bindings.size := by
  obtain ⟨entry, hentry, rfl⟩ := List.mem_map.1 hbound
  exact List.length_filter_lt_length_iff_exists.2 ⟨entry, hentry, by simpa using hmem⟩

theorem orphans_subset (t : ModelTable κ) : t.orphans ⊆ t.bindings.keys := by
  intro m hm
  obtain ⟨entry, hentry, rfl⟩ := List.mem_map.1 hm
  exact List.mem_map_of_mem (List.mem_filter.1 hentry).1

/-- Drops orphans round by round, until there are none. -/
def pruneAll (t : ModelTable κ) : ModelTable κ :=
  match _h : t.orphans with
  | [] => t
  | m :: found => (t.drop (m :: found)).pruneAll
termination_by t.bindings.size
decreasing_by
  have hmem : m ∈ t.orphans := by
    rw [‹t.orphans = m :: found›]
    exact List.mem_cons_self
  exact size_drop_lt List.mem_cons_self (t.orphans_subset hmem)

end Notebook.ModelTable
