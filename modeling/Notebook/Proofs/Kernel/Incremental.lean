/-
  Notebook.Proofs.Kernel.Incremental — incremental runs are up to date.

  A live cell that is idle and not about to run has the outputs that are computed from what it reads
  now (`Fresh`).  An edit that takes a name away marks its readers as stale, and a cell that is put
  in place is pending.  A run resolves its run-set, and no other cell reads what it changes.  So
  every operation keeps the kernel fresh, and after a run nothing is pending.

  Main results:
    * `Fresh.edit`, `Fresh.asked`, `Fresh.ran` — edits, requests and runs keep a kernel fresh,
    * `runUntilIdle_upToDate` — after any operations that end with a run, every idle cell has what
      is computed from its current code and the current names.
-/
import Mathlib
import Notebook.Proofs.Kernel.History

namespace Notebook

open Relation

namespace Kernel

variable [HashFunction] {κ σ : Type} {k k' : Kernel κ σ} {c : Cell} {f : Computation}
  {m : String} {x : Executor κ σ} {rounds : Nat} {S : CellSpec → Prop}

/-- Every live cell that is idle and not about to run is up to date. -/
def Fresh (f : Computation) (k : Kernel κ σ) : Prop :=
  ∀ c, k.graph.cell? c.id = some c → k.graph.status? c.id = some .idle →
    k.pending.has c.id = false → UpToDate f k c

namespace Fresh

/-! ## §1. Edits. -/

/-- A cell that is still idle does not read what a removed cell defined. -/
theorem removed (hfresh : Fresh f k) (hk : Computing f m k) (h : Removed k k' c) :
    Fresh f k' := by
  intro d hd hidle hpending
  have hg := hk.wellFormed
  obtain ⟨hne, a, ha, hspec⟩ := h.before hd
  have hid := Graph.cell?_id ha
  rw [← hid] at ha hne hidle hpending
  -- a child of the removed cell would be stale
  have hno : ¬ k.graph.Edge c.id a.id := by
    intro hedge
    rw [h.status_child a.id hedge] at hidle
    cases hidle
  rw [h.status_other a.id hne hno] at hidle
  rw [h.pending] at hpending
  have hview : SameView k k' a := by
    refine .of_unread hg ha (hk.public_defs ha) h.isPrivate fun name hchanged => ?_
    rw [h.names] at hchanged
    split at hchanged
    · rename_i hdef
      exact ⟨c, h.live, Ne.symm hne, hdef,
        unread_of_not_edge h.live ha (Ne.symm hne) hno (hk.public_refs ha) hdef⟩
    · exact absurd rfl hchanged
  exact ((hfresh a ha hidle hpending).congr hview).of_spec hspec

omit [HashFunction] in
/-- The books of a cell that is not live say nothing about the others. -/
theorem noted {id : CellId} (hfresh : Fresh f k) (h : Noted S k k' id) : Fresh f k' := by
  intro d hd hidle hpending
  rw [h.graph] at hd hidle
  have hne := h.ne_of_live (Graph.contains_of_cell? hd)
  exact (hfresh d hd hidle (h.not_pending hne hpending)).congr (.of_eq h.graph h.names)

/-- A cell that is put in place is about to run, and the readers of dropped names are stale. -/
theorem registered {spec : CellSpec} {g : Graph} {dropped : List String} (hfresh : Fresh f k)
    (hk : Computing f m k) (h : Registered S k k' spec g dropped) : Fresh f k' := by
  intro d hd hidle hpending
  have hg := hk.wellFormed
  obtain ⟨hne, hbefore⟩ := h.not_pending hpending
  obtain ⟨a, ha, hplaced, hspec⟩ := h.before hg hne hd
  have hid := Graph.cell?_id ha
  rw [← hid] at ha hplaced hidle hbefore hne
  -- a reader of a dropped name would be stale
  have hreader : (g.readersOf dropped).has a.id = false := by
    by_contra hread
    rw [h.status_reader a.id (Bool.eq_true_of_not_eq_false hread)] at hidle
    cases hidle
  rw [h.status_kept hg hne hreader] at hidle
  have hview : SameView k k' a := by
    refine .of_unread hg ha (hk.public_defs ha) (h.isPrivate hg) fun name hchanged => ?_
    rw [h.names] at hchanged
    split at hchanged
    · rename_i hdropped
      obtain ⟨-, c, hc, hdef⟩ := (h.mem_dropped name).1 hdropped
      have hcid := Graph.cell?_id hc
      have hother : c.id ≠ a.id := by
        rw [hcid]
        exact hne.symm
      refine ⟨c, hcid ▸ hc, hother, hdef, ?_⟩
      by_contra hread
      have href := Bool.eq_true_of_not_eq_false hread
      have hpublic := hk.public_refs ha href
      -- a public name has one definer, so that the reader does not define it itself
      have hown : a.defs.has name = false := by
        by_contra hadef
        exact hother (hg.definers_unique c (Graph.cell?_mem hc) a (Graph.cell?_mem ha) name
          hpublic hdef (Bool.eq_true_of_not_eq_false hadef))
      have hkept : g.isPrivate name = false := by
        rw [← Graph.isPrivate_congr h.shape, h.isPrivate hg]
        exact hpublic
      have hhas := (Graph.has_readersOf (hg.register h.accepted)).2
        ⟨name, hdropped, hkept, a, hplaced, href, hown⟩
      rw [hreader] at hhas
      cases hhas
    · exact absurd rfl hchanged
  exact ((hfresh a ha hidle hbefore).congr hview).of_spec hspec

/-- Edits keep a kernel fresh. -/
theorem edit (hk : Computing f m k) (h : Edit S k k') (hfresh : Fresh f k) : Fresh f k' := by
  cases h with
  | removed h => exact hfresh.removed hk h
  | noted h => exact hfresh.noted h
  | registered h => exact hfresh.registered hk h

/-! ## §2. Requests and runs. -/

omit [HashFunction] in
/-- Requests keep a kernel fresh. -/
theorem asked (h : Asked k k') (hfresh : Fresh f k) : Fresh f k' := by
  intro d hd hidle hpending
  rw [h.graph] at hd hidle
  have hbefore : k.pending.has d.id = false := by
    by_contra hhas
    rw [h.pending d.id (Bool.eq_true_of_not_eq_false hhas)] at hpending
    cases hpending
  exact (hfresh d hd hidle hbefore).congr (.of_eq h.graph h.names)

/-- Runs keep a kernel fresh. -/
theorem ran (hk : Computing f m k) (h : Completed f m k.pending k k') (hfresh : Fresh f k) :
    Fresh f k' := by
  intro d hd hidle _
  -- a cell of the run-set is resolved, and the others see nothing of the run
  by_cases hmem : d.id ∈ k.graph.descendants k.pending
  · exact (h.resolved d hd hmem).upToDate hidle
  · obtain ⟨a, hid, ha, hspec⟩ := live_before h.shape hd
    rw [h.outside_status d.id hmem, ← hid] at hidle
    rw [← hid] at hmem
    have hpending : k.pending.has a.id = false := by
      by_contra hhas
      exact hmem (Graph.mem_descendants_of_root hk.wellFormed
        (Bool.eq_true_of_not_eq_false hhas) (Graph.contains_of_cell? ha))
    have hview := h.sameView hk.wellFormed hk.toPlain ha hmem
    exact ((hfresh a ha hidle hpending).congr hview).of_spec hspec

end Fresh

/-! ## §3. Histories. -/

/-- With an executor that computes plain outputs from the normal source of a cell, what it reads and
what it misses, and with a hash function without collisions:
whatever cells without private names are registered, edited, deleted and run, and in whatever order,
a kernel that started with an empty cache, perhaps with some plain values bound, comes to the end of
every run; and then each live cell that is idle has exactly the outputs that the executor gives for
its current code and the current names. -/
theorem runUntilIdle_upToDate (hash : HashFunction.CollisionFree) (hx : x.Computes f)
    (hf : f.IsPlain) {config : Config} {disk : Disk} {clock : Nat} {own : σ}
    {started k₀ : Kernel κ σ} (hstart : Kernel.start config disk clock own = .ok started)
    (hempty : started.session.cache.isEmpty = true)
    (hbegin : k₀ = started ∨ ∃ initial : List (String × Binding),
      (∀ e ∈ initial, e.2.isStandard = true) ∧ k₀ = started.init initial)
    (ops : List Operation)
    (hops : ∀ op ∈ ops, ∀ spec ∈ op.specs, spec.IsPlain config.privateMarker)
    (hrounds : 2 ≤ rounds) :
    ∃ k, k₀.carryOutAll? x rounds (ops ++ [.runUntilIdle]) = some k ∧
      ∀ c, k.graph.cell? c.id = some c → k.status? c.id = some .idle →
        ∃ o, x.execute (k.requestOf c) = .done (.ok o) ∧
          ∀ name, c.defs.has name = true → k.names.get? name = o.bindings.get? name := by
  have hstarted : Computing f config.privateMarker started := .start hstart hempty
  have hgraph : k₀.graph.cells = [] := by
    obtain ⟨-, cache, heq⟩ := start_eq hstart
    rcases hbegin with rfl | ⟨initial, -, rfl⟩ <;> rw [heq]
    rfl
  have hcomputing : Computing f config.privateMarker k₀ := by
    rcases hbegin with rfl | ⟨initial, hinitial, rfl⟩
    · exact hstarted
    · exact hstarted.init hinitial
  have hfresh : Fresh f k₀ := by
    intro c hc
    have hmem := Graph.cell?_mem hc
    rw [hgraph] at hmem
    exact absurd hmem List.not_mem_nil
  -- up to the last run the kernel stays fresh, and after it nothing is pending
  obtain ⟨k₁, hfirst, hk₁, hfresh₁⟩ := hcomputing.carryOutAll? hash hx hf hrounds
    (fun _ _ => Fresh.edit) (fun _ _ => Fresh.asked) (fun _ _ => Fresh.ran) ops hops hfresh
  obtain ⟨k, hlast, -, hcompleted, hnone⟩ := hk₁.runUntilIdle hash hx hf hrounds
  refine ⟨k, carryOutAll?_concat hfirst hlast, fun c hc hidle => ?_⟩
  have hstatus : k.graph.status? c.id = some .idle := by
    unfold status? at hidle
    split at hidle
    · cases hidle
    · exact hidle
  obtain ⟨o, ho, hdefs⟩ := (hfresh₁.ran hk₁ hcompleted c hc hstatus (hnone c.id)).computed
  refine ⟨o, ?_, hdefs⟩
  rw [hx (k.requestOf c)]
  exact congrArg _ ho

end Kernel

/-- A cell and a reader of it; the cell is deleted, and another one takes its place. -/
def rewiring : List Operation :=
  [.register [⟨⟨0⟩, "x", .ofList ["x"], .empty⟩, ⟨⟨1⟩, "y", .ofList ["y"], .ofList ["x"]⟩],
    .runUntilIdle, .delete ⟨0⟩, .register [⟨⟨2⟩, "x", .ofList ["x"], .empty⟩]]

set_option maxRecDepth 20000 in
/-- The reader ends up idle, with what is computed from the new cell. -/
theorem Kernel.rewiring_upToDate :
    let _ := HashFunction.spelled
    ∃ k c, (blank false).carryOutAll? .collector 2 (rewiring ++ [.runUntilIdle]) = some k ∧
      k.graph.cell? ⟨1⟩ = some c ∧ k.status? ⟨1⟩ = some .idle ∧ c.defs.has "y" = true ∧
      ∃ o, Executor.collector.execute (k.requestOf c) = .done (.ok o) ∧
        k.names.get? "y" = o.bindings.get? "y" := by
  intro _
  obtain ⟨k, hrun, hall⟩ := runUntilIdle_upToDate HashFunction.spelled_collisionFree
    Executor.collector_computes Computation.collect_isPlain (start_blank false) rfl (.inl rfl)
    rewiring (by decide) (le_refl 2)
  have hend : ((blank false).carryOutAll? .collector 2 (rewiring ++ [.runUntilIdle])).map
      (fun k => (k.status? ⟨1⟩, (k.graph.cell? ⟨1⟩).map fun c => c.defs.has "y")) =
        some (some .idle, some true) := by cbv
  rw [hrun, Option.map_some, Option.some.injEq, Prod.mk.injEq] at hend
  obtain ⟨hidle, hdefs⟩ := hend
  obtain ⟨c, hc, hdef⟩ := Option.map_eq_some_iff.1 hdefs
  have hid := Graph.cell?_id hc
  obtain ⟨o, hexecute, hnames⟩ := hall c (hid ▸ hc) (hid ▸ hidle)
  exact ⟨k, c, hrun, hc, hidle, hdef, o, hexecute, hnames "y" hdef⟩

end Notebook
