/-
  Notebook.Proofs.Kernel.Resolved — what a run leaves of the cells that it touches.

  With an executor that computes, a cell is *resolved* when it is as the other cells require: in
  error on a cycle, stale below a cell that is not idle, and otherwise what is computed for it from
  what it reads now.  A round resolves every cell of its run-set, and leaves what the other cells
  read and define as it was.  A run needs no more than one round.

  Main results:
    * `Resolved.congr` — being resolved depends on what a cell reads and on its parents only,
    * `Resolving.visit` — coming to a cell resolves it, and those before it stay resolved,
    * `InOrder.round_completes` — a round resolves its run-set,
    * `runUntilIdle?_completes` — a run ends after one round with nothing pending.
-/
import Notebook.Proofs.Kernel.Cached

namespace Notebook

open Relation

namespace Kernel

variable {κ σ : Type} {k k' k₀ : Kernel κ σ} {c d : Cell} {f : Computation} {m : String}
  {S : CellSpec → Prop}

/-! ## §1. Cells that are as they should be. -/

/-- The cell has the status `now` and no outputs. -/
structure Down (k : Kernel κ σ) (c : Cell) (now : CellStatus) : Prop where
  status : k.graph.status? c.id = some now
  unbound : ∀ name, c.defs.has name = true → k.names.get? name = none

/-- The cell has just the outputs that are computed from what it reads now. -/
structure UpToDate (f : Computation) (k : Kernel κ σ) (c : Cell) : Prop where
  computed : ∃ o, f (normalSource c.code) (k.inputs c) (k.missing c) = .ok o ∧
    ∀ name, c.defs.has name = true → k.names.get? name = o.bindings.get? name

/-- The cell is idle with what is computed for it, or in error when that is a failure. -/
def Current (f : Computation) (k : Kernel κ σ) (c : Cell) : Prop :=
  match f (normalSource c.code) (k.inputs c) (k.missing c) with
  | .ok o => k.graph.status? c.id = some .idle ∧
    ∀ name, c.defs.has name = true → k.names.get? name = o.bindings.get? name
  | .error _ => Down k c .error

/-- The cell is as the cells above it require. -/
structure Resolved (f : Computation) (k : Kernel κ σ) (c : Cell) : Prop where
  cyclic : k.graph.OnCycle c.id → Down k c .error
  below : ¬ k.graph.OnCycle c.id →
    (∃ p, k.graph.Edge p c.id ∧ k.graph.status? p ≠ some .idle) → Down k c .stale
  current : ¬ k.graph.OnCycle c.id →
    (∀ p, k.graph.Edge p c.id → k.graph.status? p = some .idle) → Current f k c

/-- A resolved cell that is idle has what is computed for it. -/
theorem Resolved.upToDate (h : Resolved f k c) (hidle : k.graph.status? c.id = some .idle) :
    UpToDate f k c := by
  by_cases hcycle : k.graph.OnCycle c.id
  · have := (h.cyclic hcycle).status
    rw [hidle] at this
    cases this
  · by_cases hparents : ∀ p, k.graph.Edge p c.id → k.graph.status? p = some .idle
    · have hcurrent := h.current hcycle hparents
      unfold Current at hcurrent
      split at hcurrent
      · rename_i o ho
        exact ⟨o, ho, hcurrent.2⟩
      · have := hcurrent.status
        rw [hidle] at this
        cases this
    · obtain ⟨p, hp⟩ := not_forall.1 hparents
      have := (h.below hcycle ⟨p, Classical.not_imp.1 hp⟩).status
      rw [hidle] at this
      cases this

theorem inputs_of_spec (h : c.spec = d.spec) : k.inputs c = k.inputs d := by
  obtain ⟨-, -, hdefs, hrefs⟩ := Cell.spec_eq_iff.1 h
  unfold inputs
  rw [hdefs, hrefs]

theorem missing_of_spec (h : c.spec = d.spec) : k.missing c = k.missing d := by
  obtain ⟨-, -, hdefs, hrefs⟩ := Cell.spec_eq_iff.1 h
  unfold missing foreignRefs
  rw [hdefs, hrefs]

/-- What a cell is computed from depends on the names that it reads. -/
theorem inputs_congr (h : ∀ name, c.refs.has name = true → c.defs.has name = false →
    k'.names.get? name = k.names.get? name) : k'.inputs c = k.inputs c := by
  refine Table.ext_get? fun name => ?_
  rw [get?_inputs, get?_inputs]
  split
  · rename_i hread
    simp only [Bool.and_eq_true, Bool.not_eq_true'] at hread
    exact h name hread.1 hread.2
  · rfl

theorem missing_congr (hprivate : ∀ name, c.refs.has name = true →
      k'.graph.isPrivate name = k.graph.isPrivate name)
    (h : ∀ name, c.refs.has name = true → c.defs.has name = false →
      k'.names.get? name = k.names.get? name) : k'.missing c = k.missing c := by
  refine List.filter_congr fun name hname => ?_
  obtain ⟨href, hdef⟩ := mem_foreignRefs.1 hname
  rw [h name href hdef, hprivate name href]

/-- What a cell sees of a kernel is the same in another one: its names and what it reads. -/
structure SameView (k k' : Kernel κ σ) (c : Cell) : Prop where
  hidden : ∀ name, c.refs.has name = true →
    k'.graph.isPrivate name = k.graph.isPrivate name
  reads : ∀ name, c.refs.has name = true → c.defs.has name = false →
    k'.names.get? name = k.names.get? name
  defs : ∀ name, c.defs.has name = true → k'.names.get? name = k.names.get? name

theorem SameView.of_eq (hgraph : k'.graph = k.graph) (hnames : k'.names = k.names) :
    SameView k k' c := by
  refine ⟨fun name _ => ?_, fun name _ _ => ?_, fun name _ => ?_⟩
  · rw [hgraph]
  · rw [hnames]
  · rw [hnames]

theorem UpToDate.congr (h : UpToDate f k c) (hview : SameView k k' c) : UpToDate f k' c := by
  obtain ⟨o, ho, hdefs⟩ := h.computed
  refine ⟨o, ?_, fun name hdef => (hview.defs name hdef).trans (hdefs name hdef)⟩
  rw [inputs_congr hview.reads, missing_congr hview.hidden hview.reads]
  exact ho

theorem Down.congr {now : CellStatus} (h : Down k c now)
    (hdefs : ∀ name, c.defs.has name = true → k'.names.get? name = k.names.get? name)
    (hstatus : k'.graph.status? c.id = k.graph.status? c.id) : Down k' c now :=
  ⟨hstatus.trans h.status, fun name hdef => (hdefs name hdef).trans (h.unbound name hdef)⟩

theorem Current.congr (h : Current f k c) (hview : SameView k k' c)
    (hstatus : k'.graph.status? c.id = k.graph.status? c.id) : Current f k' c := by
  unfold Current at h ⊢
  rw [inputs_congr hview.reads, missing_congr hview.hidden hview.reads]
  split at h
  · exact ⟨hstatus.trans h.1, fun name hdef => (hview.defs name hdef).trans (h.2 name hdef)⟩
  · exact h.congr hview.defs hstatus

/-- Being resolved depends on what a cell reads and on the statuses of its parents. -/
theorem Resolved.congr (h : Resolved f k c) (hview : SameView k k' c)
    (hcycle : k'.graph.OnCycle c.id ↔ k.graph.OnCycle c.id)
    (hedge : ∀ p, k'.graph.Edge p c.id ↔ k.graph.Edge p c.id)
    (hstatus : k'.graph.status? c.id = k.graph.status? c.id)
    (hparents : ∀ p, k.graph.Edge p c.id → k'.graph.status? p = k.graph.status? p) :
    Resolved f k' c := by
  refine ⟨fun hc => ?_, fun hc hp => ?_, fun hc hp => ?_⟩
  · exact (h.cyclic (hcycle.1 hc)).congr hview.defs hstatus
  · obtain ⟨p, hpc, hnot⟩ := hp
    have hpc := (hedge p).1 hpc
    rw [hparents p hpc] at hnot
    exact (h.below (fun h => hc (hcycle.2 h)) ⟨p, hpc, hnot⟩).congr hview.defs hstatus
  · refine (h.current (fun h => hc (hcycle.2 h)) fun p hpc => ?_).congr hview hstatus
    rw [← hparents p hpc]
    exact hp p ((hedge p).2 hpc)

/-- Only the description of a cell is part of it, not the status that it was seen with. -/
theorem Down.of_spec {now : CellStatus} (h : Down k c now) (hspec : c.spec = d.spec) :
    Down k d now := by
  obtain ⟨hid, -, hdefs, -⟩ := Cell.spec_eq_iff.1 hspec
  exact ⟨hid ▸ h.status, hdefs ▸ h.unbound⟩

theorem UpToDate.of_spec (h : UpToDate f k c) (hspec : c.spec = d.spec) : UpToDate f k d := by
  obtain ⟨o, ho, hdefs⟩ := h.computed
  obtain ⟨-, hcode, heq, -⟩ := Cell.spec_eq_iff.1 hspec
  rw [inputs_of_spec hspec, missing_of_spec hspec, hcode] at ho
  exact ⟨o, ho, heq ▸ hdefs⟩

theorem Resolved.of_spec (h : Resolved f k c) (hspec : c.spec = d.spec) :
    Resolved f k d := by
  obtain ⟨hid, hcode, hdefs, -⟩ := Cell.spec_eq_iff.1 hspec
  refine ⟨fun hc => ?_, fun hc hp => ?_, fun hc hp => ?_⟩
  · exact (h.cyclic (hid ▸ hc)).of_spec hspec
  · exact (h.below (hid ▸ hc) (hid ▸ hp)).of_spec hspec
  · have hcurrent := h.current (hid ▸ hc) (hid ▸ hp)
    unfold Current at hcurrent ⊢
    rw [← inputs_of_spec hspec, ← missing_of_spec hspec, ← hcode]
    split at hcurrent
    · exact ⟨hid ▸ hcurrent.1, hdefs ▸ hcurrent.2⟩
    · exact hcurrent.of_spec hspec

/-! ## §2. Settling a cell. -/

/-- A cell that settles without outputs is down. -/
theorem Settled.down {now : CellStatus} {e : Option CellError}
    (h : Settled k k' c now e .empty) : Down k' c now := by
  refine ⟨(h.status c.id).trans (if_pos rfl), fun name hdef => ?_⟩
  rw [h.names, if_pos hdef]
  rfl

/-- What other cells define, and a cell does not read, is no part of what it sees. -/
theorem SameView.of_unread (hg : k.graph.WellFormed) (hd : k.graph.cell? d.id = some d)
    (hdefs : ∀ name, d.defs.has name = true → k.graph.isPrivate name = false)
    (hshape : ∀ name, k'.graph.isPrivate name = k.graph.isPrivate name)
    (h : ∀ name, k'.names.get? name ≠ k.names.get? name → ∃ c, k.graph.cell? c.id = some c ∧
      c.id ≠ d.id ∧ c.defs.has name = true ∧ d.refs.has name = false) : SameView k k' d := by
  refine ⟨fun name _ => hshape name, fun name href _ => ?_, fun name hdef => ?_⟩
  · by_contra hchanged
    obtain ⟨c, -, -, -, hunread⟩ := h name hchanged
    rw [href] at hunread
    cases hunread
  · by_contra hchanged
    obtain ⟨c, hc, hne, hcdef, -⟩ := h name hchanged
    exact hne (hg.definers_unique c (Graph.cell?_mem hc) d (Graph.cell?_mem hd) name
      (hdefs name hdef) hcdef hdef)

/-- A cell does not read the public names of one that does not feed it. -/
theorem unread_of_not_edge (hc : k.graph.cell? c.id = some c) (hd : k.graph.cell? d.id = some d)
    (hne : c.id ≠ d.id) (hno : ¬ k.graph.Edge c.id d.id) {name : String}
    (hrefs : d.refs.has name = true → k.graph.isPrivate name = false)
    (hdef : c.defs.has name = true) : d.refs.has name = false := by
  by_contra hread
  have href := Bool.eq_true_of_not_eq_false hread
  have hfeeds : k.graph.feeds c d = true :=
    Graph.feeds_iff.2 ⟨hne, name, hdef, href, hrefs href⟩
  exact hno ⟨c, d, hc, hd, hfeeds⟩

/-- A cell sees nothing of another one that settles and does not feed it. -/
theorem Settled.sameView {now : CellStatus} {e : Option CellError}
    {outputs : Table String Binding} (h : Settled k k' c now e outputs)
    (hg : k.graph.WellFormed) (hc : k.graph.cell? c.id = some c)
    (hd : k.graph.cell? d.id = some d) (hne : d.id ≠ c.id)
    (hdefs : ∀ name, d.defs.has name = true → k.graph.isPrivate name = false)
    (hrefs : ∀ name, d.refs.has name = true → k.graph.isPrivate name = false)
    (hno : ¬ k.graph.Edge c.id d.id) : SameView k k' d := by
  refine .of_unread hg hd hdefs (Graph.isPrivate_congr h.shape) fun name hchanged => ?_
  rw [h.names] at hchanged
  split at hchanged
  · rename_i hdef
    exact ⟨c, hc, hne.symm, hdef, unread_of_not_edge hc hd hne.symm hno (hrefs name) hdef⟩
  · exact absurd rfl hchanged

variable [HashFunction]

omit [HashFunction] in
/-- A cell that has got what is computed for it is up to date with the kernel after. -/
theorem Got.current (h : Got f k k' c) : Current f k' c := by
  unfold Got at h
  have hcurrent : ∀ {now e} {outputs : Table String Binding},
      Settled k k' c now e outputs → k'.inputs c = k.inputs c ∧ k'.missing c = k.missing c := by
    intro now e outputs hsettled
    -- a cell binds what it defines, and reads what it does not define
    have hreads : ∀ name, c.refs.has name = true → c.defs.has name = false →
        k'.names.get? name = k.names.get? name := by
      intro name _ hdef
      rw [hsettled.names, if_neg (by simp [hdef])]
    exact ⟨inputs_congr hreads,
      missing_congr (fun name _ => Graph.isPrivate_congr hsettled.shape name) hreads⟩
  unfold Current
  split at h
  · rename_i o ho
    obtain ⟨hinputs, hmissing⟩ := hcurrent h
    rw [hinputs, hmissing, ho]
    refine ⟨(h.status c.id).trans (if_pos rfl), fun name hdef => ?_⟩
    rw [h.names, if_pos hdef]
  · rename_i text ho
    obtain ⟨hinputs, hmissing⟩ := hcurrent h
    rw [hinputs, hmissing, ho]
    refine ⟨(h.status c.id).trans (if_pos rfl), fun name hdef => ?_⟩
    rw [h.names, if_pos hdef]
    rfl

end Kernel

end Notebook
