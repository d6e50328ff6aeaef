/-
  Notebook.Proofs.Model.Bindings — which cell each model is bound to.

  A table of models is looked at one model at a time: `cell?` tells the cell that a model is bound to
  directly.  Nesting and observers do not enter into it, and what is dropped for being orphaned was
  bound to no cell.

  Main results:
    * `cell?_bind` / `cell?_retain` — the only two operations of a run that concern it,
    * `exists_cell?_of_owner?` — a cell that owns a model, nested or not, has one bound directly.
-/
import Notebook.Model

namespace Notebook.ModelTable

variable {κ : Type} {t : ModelTable κ} {m : ModelId} {c : CellId}

/-! ## §1. The cell of a model. -/

/-- The cell that a model is bound to directly. -/
def cell? (t : ModelTable κ) (m : ModelId) : Option CellId :=
  (t.bindings.get? m).bind ModelBinding.cell

theorem mem_modelsOf : m ∈ t.modelsOf c ↔ t.cell? m = some c := by
  unfold modelsOf cell?
  rw [Table.mem_keys_iff, Table.get?_filter]
  cases t.bindings.get? m with
  | none => simp
  | some b => simp

theorem modelsOf_eq_nil_iff : t.modelsOf c = [] ↔ ∀ m, t.cell? m ≠ some c := by
  simp only [List.eq_nil_iff_forall_not_mem, mem_modelsOf, ne_eq]

/-- A cell that owns a model has a model that is bound to it directly: that one, or one that it is
nested in. -/
theorem exists_cell?_of_owner? (h : t.owner? m = some c) : ∃ n, t.cell? n = some c := by
  suffices hwithin : ∀ (steps : Nat) (m : ModelId), t.ownerWithin steps m = some c →
      ∃ n, t.cell? n = some c from hwithin _ m h
  intro steps
  induction steps with
  | zero => exact fun m h => nomatch h
  | succ steps ih =>
    intro m h
    unfold ownerWithin at h
    split at h
    · cases h
    · rename_i b hb
      split at h
      · rename_i hcell
        exact ⟨m, by rw [cell?, hb, Option.bind_some, hcell, h]⟩
      · exact ih _ h
      · cases h

/-! ## §2. What changes it. -/

@[simp] theorem cell?_bind (t : ModelTable κ) (model m : ModelId) (c : CellId) :
    (t.bind model c).cell? m = if m = model then some c else t.cell? m := by
  unfold bind cell?
  rw [Table.get?_insert]
  split <;> rfl

@[simp] theorem cell?_link (t : ModelTable κ) (child parent m : ModelId) :
    (t.link child parent).cell? m = t.cell? m := by
  unfold link cell?
  rw [Table.get?_insert]
  split
  · rename_i h
    subst h
    cases t.bindings.get? m <;> rfl
  · rfl

@[simp] theorem cell?_observe (t : ModelTable κ) (model m : ModelId) (c : CellId) (observer : κ) :
    (t.observe model c observer).cell? m = t.cell? m := rfl

@[simp] theorem cell?_clearObserversOf (t : ModelTable κ) (c : CellId) (m : ModelId) :
    (t.clearObserversOf c).cell? m = t.cell? m := rfl

theorem cell?_drop (t : ModelTable κ) (models : List ModelId) (m : ModelId) :
    (t.drop models).cell? m = if m ∈ models then none else t.cell? m := by
  unfold drop cell?
  rw [Table.get?_filter]
  cases t.bindings.get? m with
  | none => simp
  | some b =>
    rw [Option.filter_some]
    by_cases hm : m ∈ models <;> simp [hm]

theorem cell?_of_orphan (h : m ∈ t.orphans) : t.cell? m = none := by
  unfold orphans at h
  rw [Table.mem_keys_iff, Table.get?_filter] at h
  unfold cell?
  cases hb : t.bindings.get? m with
  | none => rfl
  | some b =>
    simp only [hb, Option.isSome_filter, Option.any_some, Bool.and_eq_true] at h
    exact Option.isNone_iff_eq_none.1 h.1

/-- Orphans are bound to no cell, so that dropping them concerns none. -/
theorem cell?_prune (t : ModelTable κ) (m : ModelId) : t.prune.cell? m = t.cell? m := by
  suffices hrounds : ∀ (rounds : Nat) (t : ModelTable κ),
      (pruneRounds rounds t).cell? m = t.cell? m from hrounds _ t
  intro rounds
  induction rounds with
  | zero => exact fun t => rfl
  | succ rounds ih =>
    intro t
    unfold pruneRounds
    split
    · rfl
    · rw [ih, cell?_drop]
      split
      · rename_i horphan
        exact (cell?_of_orphan horphan).symm
      · rfl

/-- Of the models of a cell those are kept that are to be kept, and all models of other cells. -/
theorem cell?_retain (t : ModelTable κ) (c : CellId) (keep : List ModelId) (m : ModelId) :
    (t.retain c keep).2.cell? m =
      if t.cell? m = some c ∧ m ∉ keep then none else t.cell? m := by
  unfold retain
  dsimp only
  rw [cell?_prune, cell?_drop]
  simp only [List.mem_filter, mem_modelsOf, Bool.not_eq_true', List.contains_eq_mem,
    decide_eq_false_iff_not]

end Notebook.ModelTable
