/-
  Notebook.Proofs.Kernel.Staleness — which idle cells can stand below a stale one.

  A round marks everything below a failure, but an edit marks only the direct readers of the names
  that went away.  So after an edit an idle cell can stand below a stale one, and `Marked` says how
  far this goes: with nothing pending, a cell above an idle one is idle itself, or it is a cell that
  an edit marked, which is known by having no error.

  Main results:
    * `Steady.marked` — the invariant, for every kernel that edits, requests and completed runs
      lead to,
    * `staleness_closed_iff` — staleness is closed downstream just when no cell marked by an edit
      has an idle reader, and as long as it is, no run executes a cell on stale values,
    * `deletion_leaves_reader_of_stale_idle` — a deletion at the head of a chain breaks it.
-/
import Notebook.Proofs.Kernel.Containment

namespace Notebook.Kernel

open Relation

variable {κ σ : Type} {k k' : Kernel κ σ} {S : CellSpec → Prop}

/-! ## §1. The invariant. -/

/-- Stale because of an edit and not because of a run: a run would have recorded an error. -/
def MarkedByEdit (k : Kernel κ σ) (id : CellId) : Prop :=
  k.graph.status? id = some .stale ∧ k.errors.get? id = none

/-- An idle cell has no error; a cell in error that is not to be run has one; and above an idle cell
there is an idle cell or one marked by an edit, unless one of the two is to be run. -/
structure Marked (k : Kernel κ σ) : Prop where
  idle : ∀ id, k.graph.status? id = some .idle → k.errors.get? id = none
  failed : ∀ id, k.graph.status? id = some .error → k.pending.has id = false →
    (k.errors.get? id).isSome = true
  above : ∀ a b, k.graph.Edge a b → k.graph.status? b = some .idle →
    k.pending.has b = true ∨ k.pending.has a = true ∨ k.graph.status? a = some .idle ∨
      k.MarkedByEdit a

namespace Marked

theorem asked (hm : Marked k) (h : Asked k k') : Marked k' := by
  refine ⟨?_, fun id hid hnot => ?_, fun a b hedge hb => ?_⟩
  · rw [h.graph, h.errors]
    exact hm.idle
  · rw [h.graph] at hid
    rw [h.errors]
    refine hm.failed id hid ?_
    by_contra hin
    rw [h.pending id (Bool.eq_true_of_not_eq_false hin)] at hnot
    cases hnot
  · rw [h.graph] at hedge hb
    unfold MarkedByEdit
    rw [h.graph, h.errors]
    rcases hm.above a b hedge hb with h' | h' | h' | h'
    · exact .inl (h.pending b h')
    · exact .inr (.inl (h.pending a h'))
    · exact .inr (.inr (.inl h'))
    · exact .inr (.inr (.inr h'))

/-- Marking an idle cell, or leaving a cell alone, keeps what it may be above an idle one. -/
theorem above_marked {a : CellId} (hm : Marked k) (herror : k'.errors.get? a = k.errors.get? a)
    (hstatus : k'.graph.status? a = some .stale ∨ k'.graph.status? a = k.graph.status? a)
    (h : k.graph.status? a = some .idle ∨ k.MarkedByEdit a) :
    k'.graph.status? a = some .idle ∨ k'.MarkedByEdit a := by
  have hnone : k.errors.get? a = none := by
    rcases h with h | h
    · exact hm.idle a h
    · exact h.2
  rcases hstatus with hstatus | hstatus
  · exact .inr ⟨hstatus, herror.trans hnone⟩
  · rcases h with h | h
    · exact .inl (hstatus.trans h)
    · exact .inr ⟨hstatus.trans h.1, herror.trans hnone⟩

/-- The children of a removed cell are marked. -/
theorem removed {c : Cell} (hm : Marked k) (h : Removed k k' c) : Marked k' := by
  have hne : ∀ a s, k'.graph.status? a = some s → a ≠ c.id := by
    rintro a s ha rfl
    rw [Graph.status?_of_not_live h.not_live] at ha
    cases ha
  refine ⟨fun id hid => ?_, fun id hid hnot => ?_, fun a b hedge hb => ?_⟩
  · rw [h.errors]
    rcases h.status (hne id _ hid) with hs | hs
    · simp [hs] at hid
    · exact hm.idle id (hs ▸ hid)
  · rw [h.errors]
    rw [h.pending] at hnot
    rcases h.status (hne id _ hid) with hs | hs
    · simp [hs] at hid
    · exact hm.failed id (hs ▸ hid) hnot
  · obtain ⟨hedge, hac, hbc⟩ := h.edge_iff.1 hedge
    rw [h.pending]
    have hbidle : k.graph.status? b = some .idle := by
      rcases h.status hbc with hs | hs
      · simp [hs] at hb
      · exact hs ▸ hb
    rcases hm.above a b hedge hbidle with hp | hp | hp
    · exact .inl hp
    · exact .inr (.inl hp)
    · exact .inr (.inr (hm.above_marked (by rw [h.errors]) (h.status hac) hp))

/-- The books of a cell that is not live say nothing about the live ones. -/
theorem noted {id : CellId} (hm : Marked k) (h : Noted S k k' id) : Marked k' := by
  refine ⟨fun a ha => ?_, fun a ha hnot => ?_, fun a b hab hb => ?_⟩
  · rw [h.graph] at ha
    rw [h.errors a (h.ne_of_live (Graph.contains_of_status? ha))]
    exact hm.idle a ha
  · rw [h.graph] at ha
    have hne := h.ne_of_live (Graph.contains_of_status? ha)
    rw [h.errors a hne]
    exact hm.failed a ha (h.not_pending hne hnot)
  · rw [h.graph] at hab hb
    have ha := h.ne_of_live hab.contains_left
    have hbne := h.ne_of_live hab.contains_right
    unfold MarkedByEdit
    rw [h.graph, h.errors a ha, h.pending a ha, h.pending b hbne]
    exact hm.above a b hab hb

/-- A cell that is put in place is to be run, and the readers of dropped names are marked. -/
theorem registered {spec : CellSpec} {g : Graph} {dropped : List String} (hm : Marked k)
    (hg : k.graph.WellFormed) (h : Registered S k k' spec g dropped) : Marked k' := by
  refine ⟨fun id hid => ?_, fun id hid hnot => ?_, fun a b hedge hb => ?_⟩
  · rw [h.errors]
    split
    · rfl
    · rename_i hne
      rcases h.status hg hne with hs | hs
      · simp [hs] at hid
      · exact hm.idle id (hs ▸ hid)
  · obtain ⟨hne, hbefore⟩ := h.not_pending hnot
    rw [h.errors, if_neg hne]
    rcases h.status hg hne with hs | hs
    · simp [hs] at hid
    · exact hm.failed id (hs ▸ hid) hbefore
  · -- only the edges of the cell itself are new
    rw [h.pending, h.pending]
    by_cases hbs : b = spec.id
    · exact .inl (.inl hbs)
    by_cases has : a = spec.id
    · exact .inr (.inl (.inl has))
    rw [h.edge_iff hg has hbs] at hedge
    have hbidle : k.graph.status? b = some .idle := by
      rcases h.status hg hbs with hs | hs
      · simp [hs] at hb
      · exact hs ▸ hb
    rcases hm.above a b hedge hbidle with hp | hp | hp
    · exact .inl (.inr hp)
    · exact .inr (.inl (.inr hp))
    · exact .inr (.inr (hm.above_marked (by rw [h.errors, if_neg has]) (h.status hg has) hp))

theorem edit (hm : Marked k) (hk : k.Coherent) (h : Edit S k k') : Marked k' := by
  cases h with
  | removed h => exact hm.removed h
  | noted h => exact hm.noted h
  | registered h => exact hm.registered hk.wellFormed h

theorem edits (hm : Marked k) (hk : k.Coherent) (h : ReflTransGen (Edit S) k k') :
    Marked k' := by
  induction h with
  | refl => exact hm
  | tail hchain hstep ih => exact ih.edit (coherent_of_edits hk hchain) hstep

variable [HashFunction] {x : Executor κ σ} {roots forced : OrderedSet CellId}

/-- A completed round that covers all that is pending keeps the invariant, for what is pending
afterwards. -/
theorem round {k₀ : Kernel κ σ} (hm : Marked k₀) (hk : InOrder S k) (hgraph : k.graph = k₀.graph)
    (herrors : k.errors = k₀.errors)
    (hroots : ∀ id, k₀.pending.has id = true → roots.has id = true)
    (hrun : (k.runOnce x roots forced {}).2.session.aborted = false) :
    Marked (k.runOnce x roots forced {}).2 := by
  have hg := hk.wellFormed
  obtain ⟨r, -, hover, -, -, hasked⟩ := hk.round_over hrun
  have hperm := plan_perm hg roots
  refine Marked.asked (k := r.kernel) ?_ hasked
  -- outside the run-set nothing has moved, and nothing there was pending
  have hpending : ∀ id, k.graph.contains id = true → id ∉ (k.graph.plan roots).blocked.map (·.1) ++
      (k.graph.plan roots).order → k₀.pending.has id = false := by
    intro id hlive hout
    by_contra hin
    have hroot := hroots id (Bool.eq_true_of_not_eq_false hin)
    exact hout (hperm.mem_iff.2 (Graph.mem_descendants_of_root hg hroot hlive))
  have hlive : ∀ id s, r.kernel.graph.status? id = some s → k.graph.contains id = true := by
    intro id s hs
    rw [← Graph.contains_congr hover.shape]
    exact Graph.contains_of_status? hs
  refine ⟨fun id hid => ?_, fun id hid _ => ?_, fun a b hedge hb => ?_⟩
  · by_cases hdone : id ∈ (k.graph.plan roots).blocked.map (·.1) ++ (k.graph.plan roots).order
    · exact (hover.fine_of_idle hdone hid).error
    · rw [hover.outside_errors id hdone List.not_mem_nil, herrors]
      rw [hover.outside_status id hdone List.not_mem_nil, hgraph] at hid
      exact hm.idle id hid
  · by_cases hdone : id ∈ (k.graph.plan roots).blocked.map (·.1) ++ (k.graph.plan roots).order
    · by_cases hfailed : id ∈ r.failed
      · exact (hover.broken id hfailed).error
      · rw [(hover.fine id hdone hfailed).status] at hid
        cases hid
    · have hnot := hpending id (hlive id _ hid) hdone
      rw [hover.outside_errors id hdone List.not_mem_nil, herrors]
      rw [hover.outside_status id hdone List.not_mem_nil, hgraph] at hid
      exact hm.failed id hid hnot
  · by_cases hdone : b ∈ (k.graph.plan roots).blocked.map (·.1) ++ (k.graph.plan roots).order
    · exact .inr (.inr (.inl ((hover.fine_of_idle hdone hb).parents a hedge)))
    · have hedge := (Graph.edge_congr hover.shape).1 hedge
      have hadone := not_planned_of_edge hg hedge hdone
      have hanot := hpending a hedge.contains_left hadone
      have hbnot := hpending b hedge.contains_right hdone
      rw [hover.outside_status b hdone List.not_mem_nil, hgraph] at hb
      rw [hgraph] at hedge
      unfold MarkedByEdit
      rw [hover.outside_status a hadone List.not_mem_nil,
        hover.outside_errors a hadone List.not_mem_nil, hgraph, herrors]
      rcases hm.above a b hedge hb with hp | hp | hp
      · rw [hbnot] at hp
        cases hp
      · rw [hanot] at hp
        cases hp
      · exact .inr (.inr hp)

end Marked

/-! ## §2. Edits, requests and completed runs. -/

variable [HashFunction] {x : Executor κ σ}

/-- The kernels that edits, requests to run and completed runs lead to. -/
inductive Steady (x : Executor κ σ) : Kernel κ σ → Prop
  | start {config : Config} {disk : Disk} {clock : Nat} {own : σ} {k : Kernel κ σ} :
    Kernel.start config disk clock own = .ok k → Steady x k
  | register {k : Kernel κ σ} (specs : List CellSpec) :
    Steady x k → Steady x (k.registerCells specs)
  | delete {k k' : Kernel κ σ} (cell : CellId) :
    Steady x k → k.deleteCell cell = .ok k' → Steady x k'
  | run {k : Kernel κ σ} (cells : List CellId) : Steady x k → Steady x (k.runCells cells).2
  /-- A run that comes to its end without being stopped. -/
  | untilIdle {k k' : Kernel κ σ} (rounds : Nat) (report : RunReport) :
    Steady x k → k.runUntilIdle? x rounds = some (report, k') → k'.session.aborted = false →
    Steady x k'

theorem marked_applyAll (events : List Event) (hk : InOrder (fun _ => True) k) (hm : Marked k) :
    InOrder (fun _ => True) (k.applyAll x events) ∧ Marked (k.applyAll x events) := by
  induction events generalizing k with
  | nil => exact ⟨hk, hm⟩
  | cons event rest ih =>
    rcases apply_cases x event hk.toCoherent hk.waitFor with h | h
    · exact ih (hk.edits h) (hm.edits hk.toCoherent h)
    · exact ih (hk.asked h) (hm.asked h)

theorem marked_runRounds {rounds : Nat} {report report' : RunReport}
    (hk : InOrder (fun _ => True) k) (hm : Marked k)
    (hrun : runRounds x rounds k report = some (report', k')) (hend : k'.session.aborted = false) :
    InOrder (fun _ => True) k' ∧ Marked k' := by
  induction rounds generalizing k report with
  | zero => cases hrun
  | succ rounds ih =>
    unfold runRounds at hrun
    dsimp only at hrun
    -- events and writes come first, and then a round if anything is pending
    have hinbox : Asked k { k with session.inbox := [] } := .told k _ _
    obtain ⟨hk₁, hm₁⟩ := marked_applyAll (x := x) (Event.coalesce k.session.inbox)
      (hk.asked hinbox) (hm.asked hinbox)
    have hwrites := Asked.scheduleWrites hk₁.wellFormed
    replace hk₁ := hk₁.asked hwrites
    replace hm₁ := hm₁.asked hwrites
    change InOrder _ (k.drain x).2.scheduleWrites at hk₁
    change Marked (k.drain x).2.scheduleWrites at hm₁
    generalize (k.drain x).2.scheduleWrites = k₁ at hrun hk₁ hm₁
    split at hrun
    · obtain ⟨-, rfl⟩ := Prod.mk.inj (Option.some.inj hrun)
      exact ⟨hk₁, hm₁⟩
    · rw [runOnce_report] at hrun
      have hround := hk₁.clearPending.round x k₁.pending k₁.forced {}
      split at hrun
      · rename_i haborted
        -- a round that was stopped ends the run with the request to stop still there
        obtain ⟨-, rfl⟩ := Prod.mk.inj (Option.some.inj hrun)
        exact absurd (haborted.symm.trans hend) (by simp)
      · rename_i haborted
        have hrun' := Bool.eq_false_of_not_eq_true haborted
        exact ih hround (hm₁.round hk₁.clearPending rfl rfl (fun _ h => h) hrun') hrun

theorem Steady.marked (h : Steady x k) : InOrder (fun _ => True) k ∧ Marked k := by
  induction h with
  | start h =>
    obtain ⟨-, cache, heq⟩ := start_eq h
    refine ⟨.start h, ?_⟩
    rw [heq]
    refine ⟨fun id hid => ?_, fun id hid => ?_, fun a b hedge => ?_⟩
    · cases hid
    · cases hid
    · have := hedge.contains_left
      cases this
  | register specs _ ih =>
    obtain ⟨hk, hm⟩ := ih
    have hedits := registerCells_edits hk.toCoherent hk.waitFor fun spec (_ : spec ∈ specs) =>
      trivial
    exact ⟨hk.edits hedits, hm.edits hk.toCoherent hedits⟩
  | delete cell _ hdelete ih =>
    obtain ⟨hk, hm⟩ := ih
    have hedits := deleteCell_edits hk.toCoherent hk.waitFor hdelete
    exact ⟨hk.edits hedits, hm.edits hk.toCoherent hedits⟩
  | run cells _ ih => exact ⟨ih.1.asked (.runCells _ _), ih.2.asked (.runCells _ _)⟩
  | @untilIdle k k' rounds report _ hrun hend ih =>
    have hready : Asked k { k with session.aborted := false } := .told k _ _
    exact marked_runRounds (ih.1.asked hready) (ih.2.asked hready) hrun hend

/-! ## §3. When staleness is closed downstream. -/

omit [HashFunction] in
/-- No idle cell has a stale cell, or one in error, above it. -/
def StalenessClosed (k : Kernel κ σ) : Prop :=
  ∀ a b, TransGen k.graph.Edge a b → k.graph.status? b = some .idle →
    k.graph.status? a ≠ some .stale ∧ k.graph.status? a ≠ some .error

omit [HashFunction] in
theorem stalenessClosed_iff_parents (hrest : k.AtRest) : k.StalenessClosed ↔
    ∀ a b, k.graph.Edge a b → k.graph.status? b = some .idle →
      k.graph.status? a = some .idle := by
  constructor
  · intro h a b hedge hb
    obtain ⟨hstale, herror⟩ := h a b (.single hedge) hb
    obtain ⟨hqueued, hrunning⟩ := hrest a
    obtain ⟨c, hc⟩ := Option.isSome_iff_exists.1 hedge.contains_left
    rw [Graph.status?_of_cell? hc] at hstale herror hqueued hrunning ⊢
    cases hs : c.status <;> simp_all
  · intro h a b hpath hb
    have hidle : k.graph.status? a = some .idle := by
      induction hpath using TransGen.head_induction_on with
      | single hedge => exact h _ _ hedge hb
      | head hedge _ ih => exact h _ _ hedge ih
    rw [hidle]
    exact ⟨by simp, by simp⟩

omit [HashFunction] in
/-- Where staleness is closed, it is closed at the end of a round: inside the run-set a cell is idle
only when the cells above it are, and outside of it nothing has moved. -/
theorem StalenessClosed.over {r : Round κ σ} {roots : OrderedSet CellId}
    (hclosed : k.StalenessClosed) (hk : InOrder S k)
    (hover : Underway k ((k.graph.plan roots).blocked.map (·.1) ++ (k.graph.plan roots).order) [] r)
    {a b : CellId} (hedge : k.graph.Edge a b) (hb : r.kernel.graph.status? b = some .idle) :
    r.kernel.graph.status? a = some .idle := by
  by_cases hdone : b ∈ (k.graph.plan roots).blocked.map (·.1) ++ (k.graph.plan roots).order
  · exact (hover.fine_of_idle hdone hb).parents a ((Graph.edge_congr hover.shape).2 hedge)
  · have hadone := not_planned_of_edge hk.wellFormed hedge hdone
    rw [hover.outside_status b hdone List.not_mem_nil] at hb
    rw [hover.outside_status a hadone List.not_mem_nil]
    exact (stalenessClosed_iff_parents hk.atRest).1 hclosed a b hedge hb

/-- With nothing pending, staleness is closed downstream just when no cell that an edit marked as
stale has an idle reader.  As long as it is closed, every completed round keeps it closed, and the
cells that the round executes or serves from the cache have idle cells above them only. -/
theorem staleness_closed_iff (h : Steady x k) (hnone : k.pending.isEmpty = true) :
    (k.StalenessClosed ↔ ∀ a b, k.graph.Edge a b → k.MarkedByEdit a →
      k.graph.status? b ≠ some .idle) ∧
    (k.StalenessClosed → ∀ (roots forced : OrderedSet CellId) (report report' : RunReport)
      (k' : Kernel κ σ), k.runOnce x roots forced report = (report', k') →
      k'.session.aborted = false →
      k'.StalenessClosed ∧ ∃ new, report' = report.append new ∧
        ∀ b ∈ new.executed ++ new.cached, k'.graph.status? b = some .idle ∧
          ∀ a, TransGen k.graph.Edge a b → k'.graph.status? a = some .idle) := by
  obtain ⟨hk, hm⟩ := h.marked
  have hparents := stalenessClosed_iff_parents hk.atRest
  refine ⟨?_, fun hclosed roots forced report report' k' hround hrun => ?_⟩
  · rw [hparents]
    constructor
    · intro hidle a b hedge hmarked hb
      have := hmarked.1.symm.trans (hidle a b hedge hb)
      cases this
    · intro hno a b hedge hb
      rcases hm.above a b hedge hb with hp | hp | hp | hp
      · rw [OrderedSet.has_of_isEmpty hnone] at hp
        cases hp
      · rw [OrderedSet.has_of_isEmpty hnone] at hp
        cases hp
      · exact hp
      · exact absurd hb (hno a b hedge hp)
  · rw [runOnce_report] at hround
    obtain ⟨rfl, rfl⟩ := Prod.mk.inj hround
    obtain ⟨r, -, hover, -, hreport, hasked⟩ := hk.round_over hrun
    have hrest' := (hk.round x roots forced {}).atRest
    have hidle : ∀ a b, k.graph.Edge a b → r.kernel.graph.status? b = some .idle →
        r.kernel.graph.status? a = some .idle := fun a b => hclosed.over hk hover
    refine ⟨(stalenessClosed_iff_parents hrest').2 fun a b hedge hb => ?_, _, rfl, ?_⟩
    · rw [hasked.graph] at hedge hb ⊢
      exact hidle a b ((Graph.edge_congr hover.shape).1 hedge) hb
    · rw [hreport, hasked.graph]
      intro b hb
      obtain ⟨hdone, hnot⟩ := hover.mem_output.1 hb
      have hbidle := (hover.fine b hdone hnot).status
      refine ⟨hbidle, fun a hpath => ?_⟩
      induction hpath using TransGen.head_induction_on with
      | single hedge => exact hidle _ _ hedge hbidle
      | head hedge _ ih => exact hidle _ _ hedge ih

end Notebook.Kernel

/-! ## §4. A chain that lost its head. -/

namespace Notebook.Kernel

open Relation

/-- Four cells, each of which reads the one before, to be run. -/
def chain : Kernel Unit Unit :=
  ({ config := { cellCache := false }, session := { own := () } } : Kernel Unit Unit).registerCells
    [⟨⟨0⟩, "x = 1", .ofList ["x"], .empty⟩, ⟨⟨1⟩, "y = x", .ofList ["y"], .ofList ["x"]⟩,
      ⟨⟨2⟩, "z = y", .ofList ["z"], .ofList ["y"]⟩, ⟨⟨3⟩, "w = z", .ofList ["w"], .ofList ["z"]⟩]

/-- The chain, after it was run and its first cell was deleted. -/
def beheadedChain [HashFunction] : Kernel Unit Unit :=
  let ran := ((chain.runUntilIdle? .refuser 2).map (·.2)).getD chain
  (ran.orUnchanged (ran.deleteCell ⟨0⟩)).2

theorem beheadedChain_steady :
    let _ := Sha256.hashFunction
    Steady Executor.refuser beheadedChain := by
  intro _
  have hstart : Kernel.start { cellCache := false } {} 0 () =
      .ok ({ config := { cellCache := false }, session := { own := () } } : Kernel Unit Unit) := rfl
  have hchain : Steady Executor.refuser chain := .register _ (.start hstart)
  have hends : (chain.runUntilIdle? .refuser 2).map (·.2.session.aborted) = some false := by cbv
  obtain ⟨⟨report, ran⟩, hrun, hend⟩ := Option.map_eq_some_iff.1 hends
  have hran : Steady Executor.refuser ran := .untilIdle 2 report hchain hrun hend
  have heq : beheadedChain = (ran.orUnchanged (ran.deleteCell ⟨0⟩)).2 := by
    unfold beheadedChain
    rw [hrun]
    rfl
  rw [heq]
  cases hdelete : ran.deleteCell ⟨0⟩ with
  | ok k' => exact .delete ⟨0⟩ hran hdelete
  | error e => exact hran

/-- Nothing is pending, the second cell is stale without an error, the third one reads it and is
idle, and the last one is executed when it is run. -/
theorem beheadedChain_facts :
    let _ := Sha256.hashFunction
    beheadedChain.pending.isEmpty = true ∧
      beheadedChain.graph.children ⟨1⟩ = [⟨2⟩] ∧ beheadedChain.graph.children ⟨2⟩ = [⟨3⟩] ∧
      beheadedChain.graph.status? ⟨1⟩ = some .stale ∧ beheadedChain.errors.get? ⟨1⟩ = none ∧
      beheadedChain.graph.status? ⟨2⟩ = some .idle ∧
      (beheadedChain.runOnce .refuser (.ofList [⟨3⟩]) .empty {}).1.executed = [⟨3⟩] := by
  intro _
  have hall : (fun k : Kernel Unit Unit => (k.pending.isEmpty, k.graph.children ⟨1⟩,
      k.graph.children ⟨2⟩, k.graph.status? ⟨1⟩, k.errors.get? ⟨1⟩, k.graph.status? ⟨2⟩,
      (k.runOnce .refuser (.ofList [⟨3⟩]) .empty {}).1.executed)) beheadedChain =
      (true, [⟨2⟩], [⟨3⟩], some .stale, none, some .idle, [⟨3⟩]) := by cbv
  simpa only [Prod.mk.injEq] using hall

/-- Staleness is not closed downstream in the chain that lost its head. -/
theorem beheadedChain_open :
    let _ := Sha256.hashFunction
    Steady Executor.refuser beheadedChain ∧ beheadedChain.pending.isEmpty = true ∧
      ¬ beheadedChain.StalenessClosed := by
  intro _
  obtain ⟨hnone, hchildren, -, hstale, herror, hidle, -⟩ := beheadedChain_facts
  have hsteady := beheadedChain_steady
  have hedge : beheadedChain.graph.Edge ⟨1⟩ ⟨2⟩ :=
    (Graph.mem_children hsteady.marked.1.wellFormed).1 (by simp [hchildren])
  refine ⟨hsteady, hnone, fun hclosed => ?_⟩
  exact (staleness_closed_iff hsteady hnone).1.1 hclosed ⟨1⟩ ⟨2⟩ hedge ⟨hstale, herror⟩ hidle

/-- After a deletion, with nothing pending, an idle cell can stand below a stale one, and a run can
execute a cell on what they have left behind. -/
theorem deletion_leaves_reader_of_stale_idle :
    let _ := Sha256.hashFunction
    ¬ (∀ k : Kernel Unit Unit, Steady Executor.refuser k → k.pending.isEmpty = true →
      k.StalenessClosed) ∧
    ∃ k : Kernel Unit Unit, Steady Executor.refuser k ∧ k.pending.isEmpty = true ∧
      TransGen k.graph.Edge ⟨1⟩ ⟨3⟩ ∧ k.graph.status? ⟨1⟩ = some .stale ∧
      (k.runOnce .refuser (.ofList [⟨3⟩]) .empty {}).1.executed = [⟨3⟩] := by
  intro _
  obtain ⟨hnone, hchildren, hbelow, hstale, -, hidle, hexecuted⟩ := beheadedChain_facts
  have hsteady := beheadedChain_steady
  have hg := hsteady.marked.1.wellFormed
  have hfirst : beheadedChain.graph.Edge ⟨1⟩ ⟨2⟩ :=
    (Graph.mem_children hg).1 (by simp [hchildren])
  have hsecond : beheadedChain.graph.Edge ⟨2⟩ ⟨3⟩ :=
    (Graph.mem_children hg).1 (by simp [hbelow])
  refine ⟨fun hall => ?_, beheadedChain, hsteady, hnone, .tail (.single hfirst) hsecond, hstale,
    hexecuted⟩
  exact (hall beheadedChain hsteady hnone ⟨1⟩ ⟨2⟩ (.single hfirst) hidle).1 hstale

end Notebook.Kernel
