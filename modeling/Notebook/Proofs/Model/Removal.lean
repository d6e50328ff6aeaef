/-
  Notebook.Proofs.Model.Removal — what goes when a cell gives up models.

  A cell that was run again gives up the models that it did not bind again.  They go, and so does
  every model that then hangs in the air: pruning drops in rounds what is nested in nothing that is
  bound, until a round finds nothing.  What goes is exactly what came to a dropped model on its way up, or
  came to nothing (`ModelTable.Dropped`); ways in a circle and ways to other cells stay.  A model
  that goes takes its observers with it, and all others keep theirs.

  Main results:
    * `ModelTable.prune_eq` — as many rounds as there are bindings are enough,
    * `ModelTable.pruneAll_spec` — pruning drops what hangs in the air,
    * `ModelTable.retain_spec` — what goes with the dropped models of a cell,
    * `ModelTable.retain_exact` — owners, bindings and observers afterwards.
-/
import Notebook.Proofs.Model.Owners

namespace Notebook.ModelTable

variable {κ : Type} {t t' t₁ : ModelTable κ} {m p d : ModelId} {c : CellId}
  {models : List ModelId} {gone gone' : ModelId → Prop}

/-! ## §1. Tables with models taken out. -/

/-- The one table is the other without the models that are gone; those that stay keep their bindings
and their observers. -/
structure Without (t : ModelTable κ) (gone : ModelId → Prop) (t' : ModelTable κ) : Prop where
  out : ∀ m, gone m → t'.bindings.get? m = none ∧ t'.observers.get? m = none
  stays : ∀ m, ¬ gone m →
    t'.bindings.get? m = t.bindings.get? m ∧ t'.observers.get? m = t.observers.get? m

theorem Without.congr (h : t.Without gone t') (hiff : ∀ m, gone m ↔ gone' m) :
    t.Without gone' t' where
  out m hm := h.out m ((hiff m).2 hm)
  stays m hm := h.stays m fun hgone => hm ((hiff m).1 hgone)

/-- One after the other. -/
theorem Without.trans (h : t.Without gone t₁) (h' : t₁.Without gone' t') :
    t.Without (fun m => gone m ∨ gone' m) t' where
  out m hm := by
    by_cases hgone' : gone' m
    · exact h'.out m hgone'
    · obtain ⟨hbinding, hobservers⟩ := h'.stays m hgone'
      obtain ⟨hnone, hnone'⟩ := h.out m (hm.resolve_right hgone')
      exact ⟨hbinding.trans hnone, hobservers.trans hnone'⟩
  stays m hm := by
    rw [not_or] at hm
    obtain ⟨hbinding, hobservers⟩ := h.stays m hm.1
    obtain ⟨hbinding', hobservers'⟩ := h'.stays m hm.2
    exact ⟨hbinding'.trans hbinding, hobservers'.trans hobservers⟩

/-- Taking keys out of a table. -/
theorem get?_filter_notMem {ν : Type} (table : Table ModelId ν) (models : List ModelId)
    (m : ModelId) : (table.filter fun m _ => !models.contains m).get? m =
      if m ∈ models then none else table.get? m := by
  rw [Table.get?_filter]
  cases table.get? m with
  | none => exact (ite_self none).symm
  | some v =>
    rw [Option.filter_some]
    by_cases hm : m ∈ models <;> simp [hm]

theorem without_drop (t : ModelTable κ) (models : List ModelId) :
    t.Without (· ∈ models) (t.drop models) where
  out m hm := by
    rw [drop, get?_filter_notMem, get?_filter_notMem, if_pos hm, if_pos hm]
    exact ⟨rfl, rfl⟩
  stays m hm := by
    rw [drop, get?_filter_notMem, get?_filter_notMem, if_neg hm, if_neg hm]
    exact ⟨rfl, rfl⟩

/-- Models that stay are nested as they were. -/
theorem Without.nestedIn_iff (h : t.Without gone t') :
    t'.NestedIn m p ↔ ¬ gone m ∧ t.NestedIn m p := by
  by_cases hm : gone m
  · refine iff_of_false ?_ fun hboth => hboth.1 hm
    rintro ⟨b, hb, -⟩
    rw [(h.out m hm).1] at hb
    cases hb
  · rw [and_iff_right hm, NestedIn, (h.stays m hm).1, NestedIn]

theorem Without.cell?_eq (h : t.Without gone t') (hm : ¬ gone m) : t'.cell? m = t.cell? m := by
  rw [cell?, (h.stays m hm).1, cell?]

theorem Without.cell?_eq_none (h : t.Without gone t') (hm : gone m) : t'.cell? m = none := by
  rw [cell?, (h.out m hm).1, Option.bind_none]

/-! ## §2. Pruning. -/

/-- **As many rounds as there are bindings are enough.** -/
theorem prune_eq (t : ModelTable κ) : t.prune = t.pruneAll := by
  suffices hrounds : ∀ rounds, t.bindings.size ≤ rounds → pruneRounds rounds t = t.pruneAll from
    hrounds _ (Nat.le_refl _)
  fun_induction pruneAll t with
  | case1 t hnone =>
    intro rounds _
    cases rounds with
    | zero => rfl
    | succ rounds => rw [pruneRounds, hnone]
  | case2 t m found hfound ih =>
    intro rounds hsize
    have hmem : m ∈ t.orphans := hfound ▸ List.mem_cons_self
    have hlt := size_drop_lt (List.mem_cons_self (a := m) (l := found)) (t.orphans_subset hmem)
    cases rounds with
    | zero => omega
    | succ rounds =>
      rw [pruneRounds, hfound]
      exact ih rounds (by omega)

theorem mem_orphans_iff :
    m ∈ t.orphans ↔ ∃ p, t.NestedIn m p ∧ t.bindings.get? p = none := by
  unfold orphans NestedIn
  rw [Table.mem_keys_iff, Table.get?_filter]
  cases t.bindings.get? m with
  | none => simp
  | some b =>
    obtain ⟨cell, parent⟩ := b
    cases cell with
    | some c => simp
    | none =>
      cases parent with
      | none => simp
      | some p => simp [Table.contains]

/-- What hangs in the air are the orphans, and what hangs in the air when they are gone. -/
theorem loose_iff_drop_orphans :
    t.Loose m ↔ m ∈ t.orphans ∨ (t.drop t.orphans).Loose m := by
  have hdrop := t.without_drop t.orphans
  constructor
  · intro h
    induction h with
    | gap hm hp => exact .inl (mem_orphans_iff.2 ⟨_, hm, hp⟩)
    | @up m p hm hp ih =>
      by_cases horphan : m ∈ t.orphans
      · exact .inl horphan
      · have hm' := hdrop.nestedIn_iff.2 ⟨horphan, hm⟩
        rcases ih with hp' | hp'
        · exact .inr (.gap hm' (hdrop.out p hp').1)
        · exact .inr (.up hm' hp')
  · rintro (h | h)
    · obtain ⟨p, hm, hp⟩ := mem_orphans_iff.1 h
      exact .gap hm hp
    · induction h with
      | @gap m p hm hp =>
        have hm' := (hdrop.nestedIn_iff.1 hm).2
        by_cases horphan : p ∈ t.orphans
        · obtain ⟨q, hq, hgap⟩ := mem_orphans_iff.1 horphan
          exact .up hm' (.gap hq hgap)
        · rw [(hdrop.stays p horphan).1] at hp
          exact .gap hm' hp
      | up hm hp ih => exact .up (hdrop.nestedIn_iff.1 hm).2 ih

/-- **Pruning drops what hangs in the air.** -/
theorem pruneAll_spec (t : ModelTable κ) : t.Without t.Loose t.pruneAll := by
  fun_induction pruneAll t with
  | case1 t hnone =>
    have hnot : ∀ m, ¬ t.Loose m := by
      intro m h
      induction h with
      | gap hm hp =>
        have horphan := mem_orphans_iff.2 ⟨_, hm, hp⟩
        rw [hnone] at horphan
        cases horphan
      | up _ _ ih => exact ih
    exact ⟨fun m hm => absurd hm (hnot m), fun m _ => ⟨rfl, rfl⟩⟩
  | case2 t m found hfound ih =>
    rw [← hfound] at ih ⊢
    exact ((t.without_drop t.orphans).trans ih).congr fun m => loose_iff_drop_orphans.symm

theorem orphans_pruneAll (t : ModelTable κ) : t.pruneAll.orphans = [] := by
  fun_induction pruneAll t with
  | case1 t hnone => exact hnone
  | case2 t m found hfound ih => exact ih

/-! ## §3. What goes with the models of a cell. -/

/-- What goes when directly bound models are dropped: whatever comes to one of them first on its way
up, itself included, and what hangs in the air anyway. -/
def Dropped (t : ModelTable κ) (removed : List ModelId) (m : ModelId) : Prop :=
  (∃ d ∈ removed, t.FirstBound m d) ∨ t.Loose m

/-- When directly bound models are dropped, what hangs in the air is what was nested in them or hung
in the air before. -/
theorem loose_drop_iff {removed : List ModelId} (hbound : ∀ d ∈ removed, ∃ c, t.cell? d = some c) :
    (m ∈ removed ∨ (t.drop removed).Loose m) ↔ t.Dropped removed m := by
  have hdrop := t.without_drop removed
  -- a nested model is not among those that were dropped
  have hnot : ∀ {m p}, t.NestedIn m p → m ∉ removed := by
    intro m p hm hmem
    obtain ⟨c, hc⟩ := hbound m hmem
    rw [hm.cell?_eq_none] at hc
    cases hc
  constructor
  · rintro (hm | hm)
    · obtain ⟨c, hc⟩ := hbound m hm
      exact .inl ⟨m, hm, 0, .here hc⟩
    · induction hm with
      | @gap m p hm hp =>
        have hm' := (hdrop.nestedIn_iff.1 hm).2
        by_cases hmem : p ∈ removed
        · obtain ⟨c, hc⟩ := hbound p hmem
          exact .inl ⟨p, hmem, 1, .up hm' (.here hc)⟩
        · rw [(hdrop.stays p hmem).1] at hp
          exact .inr (.gap hm' hp)
      | up hm hp ih =>
        have hm' := (hdrop.nestedIn_iff.1 hm).2
        rcases ih with ⟨d, hd, n, hn⟩ | hloose
        · exact .inl ⟨d, hd, n + 1, .up hm' hn⟩
        · exact .inr (.up hm' hloose)
  · rintro (⟨d, hd, n, hn⟩ | hm)
    · induction hn with
      | here => exact .inl hd
      | @up n m p d hm hrest ih =>
        have hm' := hdrop.nestedIn_iff.2 ⟨hnot hm, hm⟩
        rcases ih hd with hp | hp
        · exact .inr (.gap hm' (hdrop.out p hp).1)
        · exact .inr (.up hm' hp)
    · refine .inr ?_
      induction hm with
      | @gap m p hm hp =>
        refine .gap (hdrop.nestedIn_iff.2 ⟨hnot hm, hm⟩) ?_
        by_cases hmem : p ∈ removed
        · exact (hdrop.out p hmem).1
        · rw [(hdrop.stays p hmem).1, hp]
      | up hm hp ih => exact .up (hdrop.nestedIn_iff.2 ⟨hnot hm, hm⟩) ih

theorem mem_retain_iff {keep : List ModelId} :
    m ∈ (t.retain c keep).1 ↔ t.cell? m = some c ∧ m ∉ keep := by
  show m ∈ (t.modelsOf c).filter (fun m => !keep.contains m) ↔ _
  rw [List.mem_filter, mem_modelsOf]
  simp

/-- **What goes with the dropped models of a cell.** -/
theorem retain_spec (t : ModelTable κ) (c : CellId) (keep : List ModelId) :
    t.Without (t.Dropped (t.retain c keep).1) (t.retain c keep).2 := by
  have hbound : ∀ d ∈ (t.retain c keep).1, ∃ c', t.cell? d = some c' :=
    fun d hd => ⟨c, (mem_retain_iff.1 hd).1⟩
  show t.Without _ (t.drop (t.retain c keep).1).prune
  rw [prune_eq]
  exact ((t.without_drop _).trans (pruneAll_spec _)).congr fun m => loose_drop_iff hbound

/-- A model that comes to one directly bound model comes to no other, so it stays if that one is not
dropped. -/
theorem FirstBound.not_dropped {removed : List ModelId} (h : t.FirstBound m d)
    (hd : d ∉ removed) : ¬ t.Dropped removed m := by
  rintro (⟨d', hd', hm⟩ | hloose)
  · exact hd (h.unique hm ▸ hd')
  · exact hloose.not_firstBound h

/-- Ways up afterwards are those that do not come to a dropped model. -/
theorem Without.firstBound_iff {removed : List ModelId} (h : t.Without (t.Dropped removed) t') :
    t'.FirstBound m d ↔ t.FirstBound m d ∧ d ∉ removed := by
  constructor
  · rintro ⟨n, hn⟩
    induction hn with
    | @here m c hc =>
      have hkept : ¬ t.Dropped removed m := by
        intro hgone
        rw [h.cell?_eq_none hgone] at hc
        cases hc
      rw [h.cell?_eq hkept] at hc
      exact ⟨⟨0, .here hc⟩, fun hmem => hkept (.inl ⟨m, hmem, 0, .here hc⟩)⟩
    | up hm hrest ih =>
      obtain ⟨⟨n, hn⟩, hd⟩ := ih
      exact ⟨⟨n + 1, .up (h.nestedIn_iff.1 hm).2 hn⟩, hd⟩
  · rintro ⟨⟨n, hn⟩, hd⟩
    refine ⟨n, ?_⟩
    induction hn with
    | here hc =>
      have hkept := FirstBound.not_dropped ⟨0, .here hc⟩ hd
      exact .here (by rwa [h.cell?_eq hkept])
    | up hm hrest ih =>
      have hkept := FirstBound.not_dropped ⟨_, .up hm hrest⟩ hd
      exact .up (h.nestedIn_iff.2 ⟨hkept, hm⟩) (ih hd)

/-- A model that comes to a dropped one first has no owner. -/
theorem Without.owner?_eq_none {removed : List ModelId} (h : t.Without (t.Dropped removed) t')
    (hd : d ∈ removed) (hm : t.FirstBound m d) : t'.owner? m = none := by
  refine Option.eq_none_iff_forall_ne_some.2 fun c hc => ?_
  obtain ⟨d', hm', -⟩ := owner?_eq_some_iff.1 hc
  obtain ⟨hold, hnot⟩ := h.firstBound_iff.1 hm'
  exact hnot (hold.unique hm ▸ hd)

/-- Any other model has the owner that it had. -/
theorem Without.owner?_eq {removed : List ModelId} (h : t.Without (t.Dropped removed) t')
    (hnone : ∀ d ∈ removed, ¬ t.FirstBound m d) : t'.owner? m = t.owner? m := by
  have hcell : ∀ {d}, t.FirstBound m d → t'.cell? d = t.cell? d := by
    intro d hm
    have hd : d ∉ removed := fun hmem => hnone d hmem hm
    obtain ⟨c, hc⟩ := hm.elim fun n hn => hn.exists_cell?
    exact h.cell?_eq (FirstBound.not_dropped ⟨0, .here hc⟩ hd)
  refine Option.ext fun c => ?_
  rw [owner?_eq_some_iff, owner?_eq_some_iff]
  refine exists_congr fun d => ?_
  constructor
  · rintro ⟨hm, hc⟩
    have hold := (h.firstBound_iff.1 hm).1
    exact ⟨hold, (hcell hold).symm.trans hc⟩
  · rintro ⟨hm, hc⟩
    have hd : d ∉ removed := fun hmem => hnone d hmem hm
    exact ⟨h.firstBound_iff.2 ⟨hm, hd⟩, (hcell hm).trans hc⟩

/-! ## §4. What goes with a cell. -/

/-- Of a cell that is removed no model is left, directly bound or not. -/
theorem owner?_removeCell (t : ModelTable κ) (c : CellId) (m : ModelId) :
    (t.removeCell c).2.owner? m ≠ some c := by
  intro howner
  obtain ⟨n, hn⟩ := exists_cell?_of_owner? howner
  rw [removeCell, cell?_retain] at hn
  split at hn
  · cases hn
  · rename_i hnot
    exact hnot ⟨hn, List.not_mem_nil⟩

/-- And no observer that it registered. -/
theorem observers_removeCell (t : ModelTable κ) (c : CellId) {registered : List (CellId × κ)}
    (h : (t.removeCell c).2.observers.get? m = some registered) : ∀ o ∈ registered, o.1 ≠ c := by
  have hspec := (t.clearObserversOf c).retain_spec c []
  by_cases hgone : (t.clearObserversOf c).Dropped ((t.clearObserversOf c).retain c []).1 m
  · have hnone := (hspec.out m hgone).2
    rw [removeCell, hnone] at h
    cases h
  · have hkept := (hspec.stays m hgone).2
    rw [removeCell, hkept, clearObserversOf, Table.get?_filter, Table.get?_map] at h
    obtain ⟨hmap, -⟩ := Option.filter_eq_some_iff.1 h
    obtain ⟨list, -, rfl⟩ := Option.map_eq_some_iff.1 hmap
    intro o ho
    simpa using (List.mem_filter.1 ho).2

/-- **What is left when a cell gives up models.**  It gives up, in order, the models that are bound
to it directly and are not to be kept.  Pruning comes to an end.  A model whose way up came to one
of them first has no owner, and any other model has the one it had; looking out for models that were
seen finds the same owners.  What has lost its binding are exactly the models that were given up,
those that came to them, and those that hung in the air; they have no observers left, and every
other model keeps its binding and its observers.  When a cell is removed, no model and no observer
is left of it. -/
theorem retain_exact (t : ModelTable κ) (c : CellId) (keep : List ModelId) :
    ∃ removed t', t.retain c keep = (removed, t') ∧
      t' = (t.drop removed).pruneAll ∧ t'.orphans = [] ∧
      removed.Pairwise (fun a b => compare a b = .lt) ∧
      (∀ m, m ∈ removed ↔ t.cell? m = some c ∧ m ∉ keep) ∧
      (∀ m, t.ownerUp [] m = t.owner? m ∧ t'.ownerUp [] m = t'.owner? m) ∧
      (∀ m, (∃ d ∈ removed, t.FirstBound m d) → t'.owner? m = none) ∧
      (∀ m, (∀ d ∈ removed, ¬ t.FirstBound m d) → t'.owner? m = t.owner? m) ∧
      (∀ m, t.bindings.contains m = true →
        (t'.bindings.contains m = false ↔ t.Dropped removed m)) ∧
      (∀ m, t.Dropped removed m → t'.observersOf m = []) ∧
      (∀ m, ¬ t.Dropped removed m →
        t'.bindings.get? m = t.bindings.get? m ∧ t'.observers.get? m = t.observers.get? m) ∧
      (∀ m, (t.removeCell c).2.owner? m ≠ some c) ∧
      (∀ m registered, (t.removeCell c).2.observers.get? m = some registered →
        ∀ o ∈ registered, o.1 ≠ c) := by
  have hspec := t.retain_spec c keep
  have hpruned : (t.retain c keep).2 = (t.drop (t.retain c keep).1).pruneAll := prune_eq _
  have hnone : (t.retain c keep).2.orphans = [] := by
    rw [hpruned]
    exact orphans_pruneAll _
  have hsorted : (t.retain c keep).1.Pairwise fun a b => compare a b = .lt :=
    (Table.keys_ascending _).filter _
  have hlost : ∀ m, t.bindings.contains m = true →
      ((t.retain c keep).2.bindings.contains m = false ↔ t.Dropped (t.retain c keep).1 m) := by
    intro m hbound
    by_cases hgone : t.Dropped (t.retain c keep).1 m
    · refine iff_of_true ?_ hgone
      rw [Table.contains, (hspec.out m hgone).1]
      rfl
    · refine iff_of_false ?_ hgone
      rw [Table.contains, (hspec.stays m hgone).1, ← Table.contains, hbound]
      exact Bool.noConfusion
  have hunobserved : ∀ m, t.Dropped (t.retain c keep).1 m →
      (t.retain c keep).2.observersOf m = [] := by
    intro m hgone
    rw [observersOf, (hspec.out m hgone).2]
    rfl
  exact ⟨_, _, rfl, hpruned, hnone, hsorted, fun m => mem_retain_iff,
    fun m => ⟨ownerUp_eq t m, ownerUp_eq _ m⟩,
    fun m ⟨d, hd, hm⟩ => hspec.owner?_eq_none hd hm, fun m => hspec.owner?_eq, hlost, hunobserved,
    hspec.stays, t.owner?_removeCell c, fun m registered => t.observers_removeCell c⟩

end Notebook.ModelTable
