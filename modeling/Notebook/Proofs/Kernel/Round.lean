/-
  Notebook.Proofs.Kernel.Round — one round, cell by cell.

  A round goes through its plan.  At every moment the cells of the plan are of two kinds: those that
  are done and those that are still queued.  A cell that is done is either *broken* (stale or in
  error, with its error recorded and its public names unbound) or *fine* (idle without an error,
  and so is every cell that it depends on).  `Underway` is this invariant.  Blocking, queueing and
  coming to a cell preserve it, so it holds of the whole round.

  Main results:
    * `visit_cases` — all that can happen when a round comes to a cell,
    * `Underway.visit` / `Underway.visits` — a step, and the whole way through the plan,
    * `underway_readied` — the invariant holds once the cells are blocked and queued,
    * `Underway.parents_idle` — a cell whose turn has come, and that is not passed over, depends on
      idle cells only.
-/
import Notebook.Proofs.Kernel.Settle

namespace Notebook

open Relation

/-! ## §1. Reports. -/

namespace RunReport

/-- All cells of a report, whatever became of them. -/
def cells (r : RunReport) : List CellId :=
  r.executed ++ r.cached ++ r.failed ++ r.skipped ++ r.blocked

/-- The cells of a report that gave no outputs. -/
def broken (r : RunReport) : List CellId := r.failed ++ r.skipped ++ r.blocked

/-- One report after another. -/
def append (r s : RunReport) : RunReport :=
  ⟨r.executed ++ s.executed, r.cached ++ s.cached, r.failed ++ s.failed, r.skipped ++ s.skipped,
    r.blocked ++ s.blocked⟩

end RunReport

/-- The status that a blocked cell gets. -/
def BlockReason.status : BlockReason → CellStatus
  | .inCycle _ => .error
  | .downstreamOf _ => .stale

namespace Kernel

variable {κ σ : Type} {k k' k₀ : Kernel κ σ} {c : Cell} {id : CellId}

/-! ## §2. Cells that are done. -/

/-- Between rounds no cell waits or runs. -/
def AtRest (k : Kernel κ σ) : Prop :=
  ∀ id, k.graph.status? id ≠ some .queued ∧ k.graph.status? id ≠ some .running

/-- A cell without outputs: it is stale or in error, and says why. -/
structure Broken (k : Kernel κ σ) (id : CellId) : Prop where
  status : k.graph.status? id = some .stale ∨ k.graph.status? id = some .error
  error : (k.errors.get? id).isSome = true
  unbound : ∀ c, k.graph.cell? id = some c → ∀ name, c.defs.has name = true →
    k.graph.isPrivate name = false → k.names.get? name = none

/-- A cell that ran on outputs of idle cells. -/
structure Fine (k : Kernel κ σ) (id : CellId) : Prop where
  status : k.graph.status? id = some .idle
  error : k.errors.get? id = none
  parents : ∀ p, k.graph.Edge p id → k.graph.status? p = some .idle

theorem Broken.not_fine (h : k.Broken id) : ¬ k.Fine id := by
  intro hfine
  have hstatus := hfine.status
  rcases h.status with h | h <;> simp [h] at hstatus

namespace Settled

variable {now : CellStatus} {e : Option CellError} {outputs : Table String Binding}

/-- Settling another cell leaves the public names of a cell alone. -/
theorem names_other (h : Settled k k' c now e outputs) (hg : k.graph.WellFormed)
    (hc : k.graph.cell? c.id = some c) {d : Cell} (hd : k.graph.cell? d.id = some d)
    (hne : d.id ≠ c.id) {name : String} (hdef : d.defs.has name = true)
    (hpub : k.graph.isPrivate name = false) : k'.names.get? name = k.names.get? name := by
  rw [h.names]
  split
  · rename_i hcdef
    exact absurd (hg.definers_unique d (Graph.cell?_mem hd) c (Graph.cell?_mem hc) name hpub hdef
      hcdef) hne
  · rfl

theorem broken_other (h : Settled k k' c now e outputs) (hg : k.graph.WellFormed)
    (hc : k.graph.cell? c.id = some c) (hne : id ≠ c.id) (hb : k.Broken id) : k'.Broken id := by
  refine ⟨?_, ?_, fun d' hd' name hdef hpub => ?_⟩
  · rw [h.status, if_neg hne]
    exact hb.status
  · rw [h.errors, if_neg hne]
    exact hb.error
  · obtain ⟨d, hd, hshape⟩ := Graph.cell?_congr h.shape hd'
    obtain ⟨-, -, hdefs, -⟩ := Cell.shape_eq_iff.1 hshape
    have hid := Graph.cell?_id hd
    rw [Graph.isPrivate_congr h.shape] at hpub
    rw [← hdefs] at hdef
    subst hid
    rw [h.names_other hg hc hd hne hdef hpub]
    exact hb.unbound d hd name hdef hpub

theorem fine_other (h : Settled k k' c now e outputs) (hne : id ≠ c.id)
    (hno : ¬ k.graph.Edge c.id id) (hf : k.Fine id) : k'.Fine id := by
  refine ⟨?_, ?_, fun p hedge => ?_⟩
  · rw [h.status, if_neg hne]
    exact hf.status
  · rw [h.errors, if_neg hne]
    exact hf.error
  · have hedge := (Graph.edge_congr h.shape).1 hedge
    have hp : p ≠ c.id := by
      intro hp
      exact hno (hp ▸ hedge)
    rw [h.status, if_neg hp]
    exact hf.parents p hedge

theorem broken_self {err : CellError} (h : Settled k k' c now (some err) .empty)
    (hc : k.graph.cell? c.id = some c) (hnow : now = .stale ∨ now = .error) :
    k'.Broken c.id := by
  refine ⟨?_, ?_, fun d hd name hdef _ => ?_⟩
  · rw [h.status, if_pos rfl]
    rcases hnow with rfl | rfl <;> simp
  · rw [h.errors, if_pos rfl]
    rfl
  · have heq := Option.some.inj (hd.symm.trans (h.live hc))
    subst heq
    rw [h.names, if_pos hdef]
    rfl

theorem fine_self (h : Settled k k' c .idle none outputs)
    (hparents : ∀ p, k.graph.Edge p c.id → k.graph.status? p = some .idle) : k'.Fine c.id := by
  refine ⟨?_, ?_, fun p hedge => ?_⟩
  · rw [h.status, if_pos rfl]
  · rw [h.errors, if_pos rfl]
  · have hedge := (Graph.edge_congr h.shape).1 hedge
    rw [h.status, if_neg hedge.ne]
    exact hparents p hedge

end Settled

/-! ## §3. Coming to a cell. -/

variable [HashFunction] {x : Executor κ σ} {forced : OrderedSet CellId} {r r' : Round κ σ}
  {done rest : List CellId}

theorem runCell_live (x : Executor κ σ) (forced : Bool) (hc : k.graph.cell? c.id = some c) :
    k.runCell x c.id forced = k.runLive x c forced := by
  unfold runCell
  rw [hc]

/-- All that can happen when a round that is not to stop comes to a cell. -/
inductive Visited (x : Executor κ σ) (forced : OrderedSet CellId) (r : Round κ σ) (c : Cell) :
    Round κ σ → Prop
  /-- A cell above it gives no outputs. -/
  | skipped {kernel : Kernel κ σ} {ancestor : CellId} :
    r.failedParent? c.id = some ancestor →
    Settled r.kernel kernel c .stale (some (.ancestorFailed ancestor)) .empty →
    (∃ elements, kernel.session = { r.kernel.session with elements }) →
    Visited x forced r c
      { kernel
        report := { r.report with skipped := r.report.skipped ++ [c.id] }
        failed := c.id :: r.failed }
  | executed {kernel : Kernel κ σ} {output : CellOutput} :
    r.failedParent? c.id = none →
    r.kernel.runLive x c (forced.has c.id) = (.executed, kernel) →
    Settled r.kernel kernel c .idle none output.bindings →
    Visited x forced r c
      { r with kernel, report := { r.report with executed := r.report.executed ++ [c.id] } }
  | cached {kernel : Kernel κ σ} {output : CellOutput} :
    r.failedParent? c.id = none →
    r.kernel.runLive x c (forced.has c.id) = (.cached, kernel) →
    Settled r.kernel kernel c .idle none output.bindings →
    Visited x forced r c
      { r with kernel, report := { r.report with cached := r.report.cached ++ [c.id] } }
  | failed {kernel : Kernel κ σ} {text : String} :
    r.failedParent? c.id = none →
    r.kernel.runLive x c (forced.has c.id) = (.failed, kernel) →
    Settled r.kernel kernel c .error (some (.exception text)) .empty →
    Visited x forced r c
      { kernel
        report := { r.report with failed := r.report.failed ++ [c.id] }
        failed := c.id :: r.failed }

/-- The report comes to have the cell, wherever it is entered. -/
theorem Visited.cells_perm (h : Visited x forced r c r') :
    r'.report.cells.Perm (r.report.cells ++ [c.id]) := by
  refine List.perm_iff_count.2 fun a => ?_
  cases h <;>
  · simp only [RunReport.cells, List.count_append]
    omega

theorem visit_cases (x : Executor κ σ) (forced : OrderedSet CellId)
    (hc : r.kernel.graph.cell? c.id = some c) (hrun : r.kernel.session.aborted = false) :
    Visited x forced r c (r.visit x forced c.id) := by
  unfold Round.visit
  rw [if_neg (by simp [hrun])]
  cases hfound : r.failedParent? c.id with
  | some ancestor =>
    exact .skipped hfound (failCell_settled hc rfl _ _) (failCell_session ..)
  | none =>
    have hsettled := runLive_settled x (forced.has c.id) hc
    dsimp only
    rw [runCell_live x (forced.has c.id) hc]
    generalize hlive : r.kernel.runLive x c (forced.has c.id) = ran at hsettled ⊢
    obtain ⟨outcome, kernel⟩ := ran
    cases outcome with
    | executed =>
      rcases hsettled with ⟨output, -, h⟩ | ⟨text, hout, -⟩
      · exact .executed hfound hlive h
      · cases hout
    | cached =>
      rcases hsettled with ⟨output, -, h⟩ | ⟨text, hout, -⟩
      · exact .cached hfound hlive h
      · cases hout
    | failed =>
      rcases hsettled with ⟨output, hout, -⟩ | ⟨text, -, h⟩
      · exact absurd rfl hout
      · exact .failed hfound hlive h

/-- The kernel after a round has come to a cell, live or not and whether or not it is to stop. -/
theorem kernel_visit (x : Executor κ σ) (forced : OrderedSet CellId) (r : Round κ σ)
    (id : CellId) : (r.visit x forced id).kernel =
      if r.kernel.session.aborted then r.kernel.setStatus id .stale
      else match r.failedParent? id with
        | some ancestor => r.kernel.failCell id .stale (.ancestorFailed ancestor)
        | none => (r.kernel.runCell x id (forced.has id)).2 := by
  unfold Round.visit
  split
  · rfl
  · cases r.failedParent? id with
    | some ancestor => rfl
    | none =>
      dsimp only
      split <;> (rename_i hrun; rw [hrun])

/-- When the run is to stop, a cell is marked only. -/
theorem kernel_visit_aborted (x : Executor κ σ) (forced : OrderedSet CellId) (id : CellId)
    (h : r.kernel.session.aborted = true) :
    (r.visit x forced id).kernel = r.kernel.setStatus id .stale := by
  rw [kernel_visit, if_pos h]

/-- What is kept when a cell of the round is passed over, fails or is run is kept by all of it. -/
theorem visits_keep {P : Kernel κ σ → Prop} {ids : List CellId}
    (hstale : ∀ k, ∀ id ∈ ids, P k → P (k.setStatus id .stale))
    (hfail : ∀ k, ∀ id ∈ ids, ∀ now e, P k → P (k.failCell id now e))
    (hrun : ∀ k, ∀ id ∈ ids, ∀ forced, P k → P (k.runCell x id forced).2)
    (forced : OrderedSet CellId) (h : P r.kernel) :
    P (ids.foldl (Round.visit x forced) r).kernel := by
  induction ids generalizing r with
  | nil => exact h
  | cons id rest ih =>
    refine ih (fun k a ha => hstale k a (List.mem_cons_of_mem _ ha))
      (fun k a ha => hfail k a (List.mem_cons_of_mem _ ha))
      (fun k a ha => hrun k a (List.mem_cons_of_mem _ ha)) ?_
    rw [kernel_visit]
    split
    · exact hstale _ _ List.mem_cons_self h
    · split
      · exact hfail _ _ List.mem_cons_self _ _ h
      · exact hrun _ _ List.mem_cons_self _ h

/-- Once a run is to stop it stays so. -/
theorem aborted_visit (x : Executor κ σ) (forced : OrderedSet CellId) (id : CellId)
    (h : r.kernel.session.aborted = true) :
    (r.visit x forced id).kernel.session.aborted = true := by
  rw [kernel_visit_aborted x forced id h]
  exact h

theorem aborted_visits (x : Executor κ σ) (forced : OrderedSet CellId) (ids : List CellId)
    (h : r.kernel.session.aborted = true) :
    (ids.foldl (Round.visit x forced) r).kernel.session.aborted = true := by
  induction ids generalizing r with
  | nil => exact h
  | cons id rest ih => exact ih (aborted_visit x forced id h)

/-- A run that was not to stop in the end was never to stop before. -/
theorem goesOn_of_visits {ids : List CellId}
    (hrun : (ids.foldl (Round.visit x forced) r).kernel.session.aborted = false) :
    r.kernel.session.aborted = false := by
  by_contra hne
  rw [aborted_visits x forced ids (Bool.eq_true_of_not_eq_false hne)] at hrun
  cases hrun

/-! ## §4. A round under way. -/

omit [HashFunction] in
theorem failedParent?_none (h : r.failedParent? id = none) {p : CellId}
    (hp : p ∈ r.kernel.graph.parents id) :
    p ∉ r.failed ∧ r.kernel.graph.status? p ≠ some .error ∧
      r.kernel.graph.status? p ≠ some .stale := by
  have hfalse := List.find?_eq_none.1 h p hp
  simp only [Bool.or_eq_true, not_or, Bool.not_eq_true] at hfalse
  obtain ⟨hfailed, hstatus⟩ := hfalse
  refine ⟨by simpa using hfailed, ?_, ?_⟩ <;>
  · intro heq
    rw [heq] at hstatus
    cases hstatus

/-- The invariant of a round that began with the kernel `k₀`: the cells that are done are broken or
fine, those of `rest` are still to come, and all other cells are as they were. -/
structure Underway (k₀ : Kernel κ σ) (done rest : List CellId) (r : Round κ σ) : Prop
    extends Undisturbed k₀ r.kernel where
  nodup : (done ++ rest).Nodup
  live : ∀ id ∈ rest, k₀.graph.contains id = true
  broken : ∀ id ∈ r.failed, r.kernel.Broken id
  fine : ∀ id ∈ done, id ∉ r.failed → r.kernel.Fine id
  /-- No cell that is still to come feeds one that is fine. -/
  ahead : ∀ id ∈ done, id ∉ r.failed → ∀ a ∈ rest, ¬ k₀.graph.Edge a id
  reported : r.report.cells.Perm done
  mem_failed : ∀ id, id ∈ r.failed ↔ id ∈ r.report.broken
  outside_status : ∀ id, id ∉ done → id ∉ rest →
    r.kernel.graph.status? id = k₀.graph.status? id
  outside_errors : ∀ id, id ∉ done → id ∉ rest → r.kernel.errors.get? id = k₀.errors.get? id
  /-- Only names that a cell defines which is done have moved. -/
  outside_names : ∀ name,
    (∀ c, k₀.graph.cell? c.id = some c → c.id ∈ done → c.defs.has name = false) →
      r.kernel.names.get? name = k₀.names.get? name

namespace Underway

omit [HashFunction] in
theorem failed_mem (h : Underway k₀ done rest r) (hid : id ∈ r.failed) : id ∈ done := by
  refine h.reported.mem_iff.1 ?_
  have := (h.mem_failed id).1 hid
  simp only [RunReport.broken, RunReport.cells, List.mem_append] at this ⊢
  tauto

omit [HashFunction] in
/-- A cell that is done and idle is not broken. -/
theorem fine_of_idle (h : Underway k₀ done rest r) (hdone : id ∈ done)
    (hidle : r.kernel.graph.status? id = some .idle) : r.kernel.Fine id := by
  by_cases hfailed : id ∈ r.failed
  · rcases (h.broken id hfailed).status with hs | hs <;> simp [hs] at hidle
  · exact h.fine id hdone hfailed

omit [HashFunction] in
/-- The cells that ran or were served are those that are done and not broken. -/
theorem mem_output (h : Underway k₀ done rest r) :
    id ∈ r.report.executed ++ r.report.cached ↔ id ∈ done ∧ id ∉ r.failed := by
  have honce := List.nodup_iff_count_le_one.1
    (h.reported.nodup_iff.2 (List.nodup_append.1 h.nodup).1) id
  have hdone := h.reported.mem_iff (a := id)
  rw [h.mem_failed, ← hdone]
  simp only [RunReport.cells, RunReport.broken, List.count_append] at honce ⊢
  constructor
  · intro hin
    have htwo := List.count_pos_iff.2 hin
    refine ⟨by simp only [List.mem_append] at hin ⊢; tauto, fun hbroken => ?_⟩
    -- a cell occurs once in the report
    have hthree := List.count_pos_iff.2 hbroken
    simp only [List.count_append] at htwo hthree
    omega
  · intro hin
    simp only [List.mem_append] at hin ⊢
    tauto

omit [HashFunction] in
/-- The public names of the cells outside are bound as they were. -/
theorem outside_defs (h : Underway k₀ done rest r) (hg : k₀.graph.WellFormed)
    (hc : k₀.graph.cell? c.id = some c) (hout : c.id ∉ done) {name : String}
    (hdef : c.defs.has name = true) (hpub : k₀.graph.isPrivate name = false) :
    r.kernel.names.get? name = k₀.names.get? name := by
  refine h.outside_names name fun d hd hin => ?_
  by_contra hddef
  have hid := hg.definers_unique d (Graph.cell?_mem hd) c (Graph.cell?_mem hc) name hpub
    (Bool.eq_true_of_not_eq_false hddef) hdef
  exact hout (hid ▸ hin)

omit [HashFunction] in
/-- The cells that are still to come are live. -/
theorem live_now (h : Underway k₀ done rest r) (hid : id ∈ rest) :
    r.kernel.graph.contains id = true := by
  rw [Graph.contains_congr h.shape]
  exact h.live id hid

omit [HashFunction] in
/-- The cell that is next is live. -/
theorem next_live (h : Underway k₀ done (id :: rest) r) :
    ∃ c, c.id = id ∧ r.kernel.graph.cell? c.id = some c := by
  obtain ⟨c, hc⟩ := Option.isSome_iff_exists.1 (h.live_now (List.mem_cons_self ..))
  have hid := Graph.cell?_id hc
  subst hid
  exact ⟨c, rfl, hc⟩

omit [HashFunction] in
/-- When no parent of the next cell stands in its way, all of them are idle. -/
theorem parents_idle (h : Underway k₀ done (id :: rest) r) (hg : k₀.graph.WellFormed)
    (hrest : k₀.AtRest) (hfirst : ∀ a ∈ rest, ¬ k₀.graph.Edge a id)
    (hfree : r.failedParent? id = none) {p : CellId}
    (hedge : r.kernel.graph.Edge p id) : r.kernel.graph.status? p = some .idle := by
  obtain ⟨hfailed, herror, hstale⟩ :=
    failedParent?_none hfree ((Graph.mem_parents (h.wellFormed hg)).2 hedge)
  have hedge₀ := (Graph.edge_congr h.shape).1 hedge
  have hlater : p ∉ rest := by
    intro hp
    exact hfirst p hp hedge₀
  by_cases hdone : p ∈ done
  · exact (h.fine p hdone hfailed).status
  · -- a parent outside the round keeps its status, and no round is under way there
    have hout := h.outside_status p hdone (by simp [hedge.ne, hlater])
    obtain ⟨c, hc⟩ := Option.isSome_iff_exists.1 hedge.contains_left
    have hstatus := Graph.status?_of_cell? hc
    obtain ⟨hqueued, hrunning⟩ := hrest p
    rw [← hout] at hqueued hrunning
    rw [hstatus] at herror hstale hqueued hrunning ⊢
    cases hs : c.status <;> simp_all

omit [HashFunction] in
/-- What is left to show of a step: the next cell is settled, and it is broken or fine. -/
theorem step {now : CellStatus} {e : Option CellError} {outputs : Table String Binding}
    (h : Underway k₀ done (c.id :: rest) r) (hg : k₀.graph.WellFormed)
    (hc : r.kernel.graph.cell? c.id = some c)
    (hsettled : Settled r.kernel r'.kernel c now e outputs)
    (hfailed : ∀ id, id ∈ r'.failed ↔ id = c.id ∧ r'.kernel.Broken id ∨ id ∈ r.failed)
    (hfine : c.id ∉ r'.failed → r'.kernel.Fine c.id ∧ ∀ a ∈ rest, ¬ k₀.graph.Edge a c.id)
    (hreported : r'.report.cells.Perm (r.report.cells ++ [c.id]))
    (hbroken : ∀ id, id ∈ r'.failed ↔ id ∈ r'.report.broken) :
    Underway k₀ (done ++ [c.id]) rest r' := by
  have hgr := h.wellFormed hg
  have hnew : c.id ∉ done := by
    intro hin
    exact List.disjoint_of_nodup_append h.nodup hin (List.mem_cons_self ..)
  have hold : ∀ id ∈ done, id ∉ r'.failed → id ∉ r.failed := by
    intro id _ hnot hin
    exact hnot ((hfailed id).2 (.inr hin))
  refine ⟨h.toUndisturbed.trans hsettled.toUndisturbed, by simpa using h.nodup,
    fun id hid => h.live id (List.mem_cons_of_mem _ hid), fun id hid => ?_,
    fun id hid hnot => ?_, fun id hid hnot a ha => ?_, ?_, hbroken, fun id hdone hrest => ?_,
    fun id hdone hrest => ?_, fun name hname => ?_⟩
  -- a broken cell stays broken, and the next one is none of those
  · rcases (hfailed id).1 hid with ⟨-, hbroken⟩ | hin
    · exact hbroken
    · have hne : id ≠ c.id := by
        rintro rfl
        exact hnew (h.failed_mem hin)
      exact hsettled.broken_other hgr hc hne (h.broken id hin)
  · rcases List.mem_append.1 hid with hid | hid
    · have hne : id ≠ c.id := by
        rintro rfl
        exact hnew hid
      have hno := h.ahead id hid (hold id hid hnot) c.id (List.mem_cons_self ..)
      rw [← Graph.edge_congr h.shape] at hno
      exact hsettled.fine_other hne hno (h.fine id hid (hold id hid hnot))
    · obtain rfl := List.mem_singleton.1 hid
      exact (hfine hnot).1
  · rcases List.mem_append.1 hid with hid | hid
    · exact h.ahead id hid (hold id hid hnot) a (List.mem_cons_of_mem _ ha)
    · obtain rfl := List.mem_singleton.1 hid
      exact (hfine hnot).2 a ha
  · exact hreported.trans (h.reported.append_right _)
  · simp only [List.mem_append, List.mem_singleton, not_or] at hdone
    rw [hsettled.status, if_neg hdone.2]
    exact h.outside_status id hdone.1 (by simp [hdone.2, hrest])
  · simp only [List.mem_append, List.mem_singleton, not_or] at hdone
    rw [hsettled.errors, if_neg hdone.2]
    exact h.outside_errors id hdone.1 (by simp [hdone.2, hrest])
  -- the next cell is among those that are done now, and so it does not define the name
  · obtain ⟨c₀, hc₀, hshape⟩ := Graph.cell?_congr h.shape hc
    obtain ⟨hid, -, hdefs, -⟩ := Cell.shape_eq_iff.1 hshape
    have hnot := hname c₀ (by rw [hid]; exact hc₀) (by rw [hid]; simp)
    rw [hdefs] at hnot
    rw [hsettled.names, hnot, if_neg Bool.false_ne_true]
    exact h.outside_names name fun d hd hin => hname d hd (List.mem_append_left _ hin)

omit [HashFunction] in
/-- Settling the next cell without outputs. -/
theorem step_broken {err : CellError} (h : Underway k₀ done (c.id :: rest) r)
    (hg : k₀.graph.WellFormed) (hc : r.kernel.graph.cell? c.id = some c)
    (hsettled : Settled r.kernel r'.kernel c now (some err) .empty)
    (hnow : now = .stale ∨ now = .error) (hfailed : r'.failed = c.id :: r.failed)
    (hreported : r'.report.cells.Perm (r.report.cells ++ [c.id]))
    (hbroken : ∀ id, id ∈ r'.report.broken ↔ id = c.id ∨ id ∈ r.report.broken) :
    Underway k₀ (done ++ [c.id]) rest r' := by
  have hself := hsettled.broken_self hc hnow
  refine h.step hg hc hsettled (fun id => ?_) (fun hnot => ?_) hreported (fun id => ?_)
  · rw [hfailed, List.mem_cons]
    refine or_congr_left ⟨?_, And.left⟩
    rintro rfl
    exact ⟨rfl, hself⟩
  · rw [hfailed] at hnot
    exact absurd (List.mem_cons_self ..) hnot
  · rw [hfailed, List.mem_cons, hbroken, h.mem_failed]

omit [HashFunction] in
/-- Settling the next cell with its outputs, when all cells above it have theirs. -/
theorem step_fine (h : Underway k₀ done (c.id :: rest) r) (hg : k₀.graph.WellFormed)
    (hc : r.kernel.graph.cell? c.id = some c)
    (hsettled : Settled r.kernel r'.kernel c .idle none outputs)
    (hparents : ∀ p, r.kernel.graph.Edge p c.id → r.kernel.graph.status? p = some .idle)
    (hfirst : ∀ a ∈ rest, ¬ k₀.graph.Edge a c.id) (hfailed : r'.failed = r.failed)
    (hreported : r'.report.cells.Perm (r.report.cells ++ [c.id]))
    (hbroken : r'.report.broken = r.report.broken) :
    Underway k₀ (done ++ [c.id]) rest r' := by
  have hself := hsettled.fine_self hparents
  refine h.step hg hc hsettled (fun id => ?_) (fun _ => ⟨hself, hfirst⟩) hreported (fun id => ?_)
  · rw [hfailed]
    refine (or_iff_right ?_).symm
    rintro ⟨rfl, hbroken⟩
    exact hbroken.not_fine hself
  · rw [hfailed, hbroken]
    exact h.mem_failed id

/-- Coming to the next cell preserves the invariant. -/
theorem visit (h : Underway k₀ done (c.id :: rest) r) (hg : k₀.graph.WellFormed)
    (hrest : k₀.AtRest) (hfirst : ∀ a ∈ rest, ¬ k₀.graph.Edge a c.id)
    (hc : r.kernel.graph.cell? c.id = some c) (hvisited : Visited x forced r c r') :
    Underway k₀ (done ++ [c.id]) rest r' := by
  have hreported := hvisited.cells_perm
  cases hvisited with
  | skipped _ hsettled _ =>
    refine h.step_broken hg hc hsettled (.inl rfl) rfl hreported fun id => ?_
    simp only [RunReport.broken, List.mem_append, List.mem_singleton]
    tauto
  | executed hfree _ hsettled =>
    have hparents := fun p => h.parents_idle hg hrest hfirst hfree (p := p)
    exact h.step_fine hg hc hsettled hparents hfirst rfl hreported rfl
  | cached hfree _ hsettled =>
    have hparents := fun p => h.parents_idle hg hrest hfirst hfree (p := p)
    exact h.step_fine hg hc hsettled hparents hfirst rfl hreported rfl
  | failed _ _ hsettled =>
    refine h.step_broken hg hc hsettled (.inr rfl) rfl hreported fun id => ?_
    simp only [RunReport.broken, List.mem_append, List.mem_singleton]
    tauto

/-- The whole way through the rest of the plan, with whatever else each step preserves. -/
theorem visits (x : Executor κ σ) (forced : OrderedSet CellId)
    {P : List CellId → List CellId → Round κ σ → Prop} (hg : k₀.graph.WellFormed)
    (hrest : k₀.AtRest)
    (hstep : ∀ done rest r r' c, Underway k₀ done (c.id :: rest) r →
      (∀ a ∈ rest, ¬ k₀.graph.Edge a c.id) → P done (c.id :: rest) r →
      r.kernel.graph.cell? c.id = some c → Visited x forced r c r' → P (done ++ [c.id]) rest r')
    (h : Underway k₀ done rest r) (hordered : rest.Pairwise fun a b => ¬ k₀.graph.Edge b a)
    (hp : P done rest r)
    (hrun : (rest.foldl (Round.visit x forced) r).kernel.session.aborted = false) :
    Underway k₀ (done ++ rest) [] (rest.foldl (Round.visit x forced) r) ∧
      P (done ++ rest) [] (rest.foldl (Round.visit x forced) r) := by
  induction rest generalizing done r with
  | nil => simpa using ⟨h, hp⟩
  | cons id rest ih =>
    obtain ⟨c, rfl, hc⟩ := h.next_live
    have hvisited := visit_cases x forced hc (goesOn_of_visits hrun)
    obtain ⟨hfirst, hordered⟩ := List.pairwise_cons.1 hordered
    have := ih (h.visit hg hrest hfirst hc hvisited) hordered
      (hstep _ _ _ _ _ h hfirst hp hc hvisited) hrun
    simpa using this

end Underway

/-! ## §5. The beginning of a round. -/

omit [HashFunction] in
theorem block_settled (hc : r.kernel.graph.cell? c.id = some c) (reason : BlockReason) :
    (∃ e, Settled r.kernel (r.block c.id reason).kernel c reason.status (some e) .empty) ∧
      ∃ elements, (r.block c.id reason).kernel.session = { r.kernel.session with elements } := by
  cases reason with
  | inCycle cycle => exact ⟨⟨_, failCell_settled hc rfl _ _⟩, failCell_session ..⟩
  | downstreamOf ancestor => exact ⟨⟨_, failCell_settled hc rfl _ _⟩, failCell_session ..⟩

omit [HashFunction] in
theorem underway_begin {blocked order : List CellId} (hnodup : (blocked ++ order).Nodup)
    (hlive : ∀ id ∈ blocked ++ order, k₀.graph.contains id = true) :
    Underway k₀ [] (blocked ++ order) { kernel := k₀, report := {} } where
  toUndisturbed := .refl k₀
  nodup := hnodup
  live := hlive
  broken := fun _ h => absurd h List.not_mem_nil
  fine := fun _ h => absurd h List.not_mem_nil
  ahead := fun _ h => absurd h List.not_mem_nil
  reported := .nil
  mem_failed := fun _ => Iff.rfl
  outside_status := fun _ _ _ => rfl
  outside_errors := fun _ _ _ => rfl
  outside_names := fun _ _ => rfl

namespace Underway

omit [HashFunction] in
/-- Blocking a cell preserves the invariant. -/
theorem block (h : Underway k₀ done (id :: rest) r) (hg : k₀.graph.WellFormed)
    (reason : BlockReason) : Underway k₀ (done ++ [id]) rest (r.block id reason) := by
  obtain ⟨c, rfl, hc⟩ := h.next_live
  obtain ⟨⟨e, hsettled⟩, -⟩ := block_settled hc reason
  have hnow : reason.status = .stale ∨ reason.status = .error := by
    cases reason with
    | inCycle cycle => exact .inr rfl
    | downstreamOf ancestor => exact .inl rfl
  refine h.step_broken hg hc hsettled hnow rfl ?_ fun a => ?_
  · show (r.report.executed ++ r.report.cached ++ r.report.failed ++ r.report.skipped ++
      (r.report.blocked ++ [c.id])).Perm _
    rw [← List.append_assoc]
    exact .refl _
  · simp only [Round.block, RunReport.broken, List.mem_append, List.mem_singleton]
    tauto

omit [HashFunction] in
theorem blocks (blocked : List (CellId × BlockReason)) (hg : k₀.graph.WellFormed)
    (h : Underway k₀ done (blocked.map (·.1) ++ rest) r) :
    Underway k₀ (done ++ blocked.map (·.1)) rest
      (blocked.foldl (fun r b => r.block b.1 b.2) r) := by
  induction blocked generalizing done r with
  | nil => simpa using h
  | cons b blocked ih => simpa using ih (h.block hg b.2)

omit [HashFunction] in
/-- The cells that are still to come may get any status. -/
theorem queue (h : Underway k₀ done rest r) :
    Underway k₀ done rest
      { r with kernel := rest.foldl (fun k id => k.setStatus id .queued) r.kernel } := by
  obtain ⟨published, heq⟩ := setStatusAll_eq r.kernel .queued rest
  rw [heq]
  have hshape : (r.kernel.graph.withStatus .queued rest).shape = r.kernel.graph.shape :=
    Graph.shape_withStatus ..
  have hstatus : ∀ id, id ∉ rest →
      (r.kernel.graph.withStatus .queued rest).status? id = r.kernel.graph.status? id := by
    intro id hnot
    rw [Graph.status?_withStatus, if_neg hnot]
  have hdone : ∀ id ∈ done, id ∉ rest := by
    intro id hid hin
    exact List.disjoint_of_nodup_append h.nodup hid hin
  -- the cells that get the new status are neither done nor above a cell that is fine
  have hbroken : ∀ id ∈ r.failed, Broken { r.kernel with
      graph := r.kernel.graph.withStatus .queued rest, published } id := by
    intro id hid
    have hb := h.broken id hid
    refine ⟨?_, hb.error, fun c' hc' name hdef hpub => ?_⟩
    · show (r.kernel.graph.withStatus .queued rest).status? id = _ ∨ _
      rw [hstatus id (hdone id (h.failed_mem hid))]
      exact hb.status
    · obtain ⟨c, hc, hcs⟩ := Graph.cell?_congr hshape hc'
      obtain ⟨-, -, hdefs, -⟩ := Cell.shape_eq_iff.1 hcs
      exact hb.unbound c hc name (hdefs ▸ hdef) (Graph.isPrivate_congr hshape name ▸ hpub)
  have hfine : ∀ id ∈ done, id ∉ r.failed → Fine { r.kernel with
      graph := r.kernel.graph.withStatus .queued rest, published } id := by
    intro id hid hnot
    have hf := h.fine id hid hnot
    refine ⟨(hstatus id (hdone id hid)).trans hf.status, hf.error, fun p hedge => ?_⟩
    have hedge := (Graph.edge_congr hshape).1 hedge
    have hp : p ∉ rest := by
      intro hp
      exact h.ahead id hid hnot p hp ((Graph.edge_congr h.shape).1 hedge)
    exact (hstatus p hp).trans (hf.parents p hedge)
  exact
    { h with
      shape := hshape.trans h.shape
      broken := hbroken
      fine := hfine
      outside_status := fun id hd hr => (hstatus id hr).trans (h.outside_status id hd hr) }

end Underway

omit [HashFunction] in
/-- The round once the barred cells are blocked and the others are queued. -/
def readied (k : Kernel κ σ) (roots : OrderedSet CellId) (report : RunReport) : Round κ σ :=
  let plan := k.graph.plan roots
  let r : Round κ σ := plan.blocked.foldl (fun r b => r.block b.1 b.2) { kernel := k, report }
  { r with kernel := plan.order.foldl (fun k id => k.setStatus id .queued) r.kernel }

omit [HashFunction] in
/-- What is kept when a cell fails or is queued is kept until the first cell is come to. -/
theorem readied_keeps {P : Kernel κ σ → Prop} (hfail : ∀ k id now e, P k → P (k.failCell id now e))
    (hqueue : ∀ k id, P k → P (k.setStatus id .queued)) (h : P k) (roots : OrderedSet CellId)
    (report : RunReport) : P (k.readied roots report).kernel := by
  have hblock : ∀ (blocked : List (CellId × BlockReason)) (r : Round κ σ), P r.kernel →
      P (blocked.foldl (fun r b => r.block b.1 b.2) r).kernel := by
    intro blocked
    induction blocked with
    | nil => exact fun r h => h
    | cons b rest ih =>
      obtain ⟨id, reason⟩ := b
      refine fun r h => ih _ ?_
      cases reason with
      | inCycle cycle => exact hfail _ _ _ _ h
      | downstreamOf ancestor => exact hfail _ _ _ _ h
  have hall : ∀ (ids : List CellId) (k : Kernel κ σ), P k →
      P (ids.foldl (fun k id => k.setStatus id .queued) k) := by
    intro ids
    induction ids with
    | nil => exact fun k h => h
    | cons id rest ih => exact fun k h => ih _ (hqueue k id h)
  exact hall _ _ (hblock _ _ h)

/-- A round gets ready, comes to the cells of its plan in order, and tidies up. -/
theorem runOnce_eq (k : Kernel κ σ) (x : Executor κ σ) (roots forced : OrderedSet CellId)
    (report : RunReport) : k.runOnce x roots forced report =
      let r := (k.graph.plan roots).order.foldl (Round.visit x forced) (k.readied roots report)
      (r.report, r.kernel.collectGarbage.scheduleWrites) := rfl

omit [HashFunction] in
/-- A round whose report comes after another one. -/
def Round.after (r : Round κ σ) (before : RunReport) : Round κ σ :=
  { r with report := before.append r.report }

omit [HashFunction] in
theorem block_after (r : Round κ σ) (before : RunReport) (id : CellId) (reason : BlockReason) :
    (r.after before).block id reason = (r.block id reason).after before := by
  simp [Round.block, Round.after, RunReport.append, List.append_assoc]

theorem visit_after (r : Round κ σ) (before : RunReport) (id : CellId) :
    (r.after before).visit x forced id = (r.visit x forced id).after before := by
  have hparent : (r.after before).failedParent? id = r.failedParent? id := rfl
  have hkernel : (r.after before).kernel = r.kernel := rfl
  unfold Round.visit
  rw [hparent, hkernel]
  split
  · simp [Round.skip, Round.after, RunReport.append, List.append_assoc]
  · split
    · simp [Round.skip, Round.after, RunReport.append, List.append_assoc]
    · split <;> simp [Round.after, RunReport.append, List.append_assoc]

omit [HashFunction] in
theorem foldl_after {α : Type} {f : Round κ σ → α → Round κ σ} (before : RunReport)
    (hf : ∀ r i, f (r.after before) i = (f r i).after before) (r : Round κ σ) (items : List α) :
    items.foldl f (r.after before) = (items.foldl f r).after before := by
  induction items generalizing r with
  | nil => rfl
  | cons first rest ih => rw [List.foldl_cons, hf, ih, List.foldl_cons]

/-- A round only adds to the report that it is given. -/
theorem runOnce_report (k : Kernel κ σ) (x : Executor κ σ) (roots forced : OrderedSet CellId)
    (report : RunReport) : k.runOnce x roots forced report =
      (report.append (k.runOnce x roots forced {}).1, (k.runOnce x roots forced {}).2) := by
  have hbegin : ({ kernel := k, report } : Round κ σ) =
      ({ kernel := k, report := {} } : Round κ σ).after report := by
    simp [Round.after, RunReport.append]
  have hready : k.readied roots report = (k.readied roots {}).after report := by
    have hblocked := foldl_after (f := fun r (b : CellId × BlockReason) => r.block b.1 b.2) report
      (fun r b => block_after r report b.1 b.2) { kernel := k, report := {} }
      (k.graph.plan roots).blocked
    unfold readied
    rw [hbegin]
    dsimp only
    rw [hblocked]
    rfl
  have hvisits := foldl_after (f := Round.visit x forced) report
    (fun r id => visit_after r report id) (k.readied roots {}) (k.graph.plan roots).order
  rw [runOnce_eq, runOnce_eq, hready]
  dsimp only
  rw [hvisits]
  rfl

omit [HashFunction] in
/-- The plan divides the run-set. -/
theorem plan_perm (hg : k.graph.WellFormed) (roots : OrderedSet CellId) :
    ((k.graph.plan roots).blocked.map (·.1) ++ (k.graph.plan roots).order).Perm
      (k.graph.descendants roots) := by
  refine (List.perm_ext_iff_of_nodup ?_ (Graph.descendants_nodup hg)).2 fun id => ?_
  · refine List.nodup_append.2 ⟨Graph.plan_blocked_nodup hg, Graph.plan_order_nodup hg, ?_⟩
    intro a ha b hb hab
    subst hab
    exact ((Graph.mem_plan_order hg).1 hb).2 ((Graph.mem_plan_blocked hg).1 ha)
  · rw [List.mem_append, Graph.mem_plan_blocked hg, Graph.mem_plan_order hg]
    constructor
    · intro h
      rcases h with h | h
      · exact h.mem_descendants hg
      · exact h.1
    · intro h
      by_cases hbarred : k.graph.Barred roots id
      · exact .inl hbarred
      · exact .inr ⟨h, hbarred⟩

omit [HashFunction] in
/-- What feeds a cell outside of the run-set is outside of it as well. -/
theorem not_planned_of_edge (hg : k.graph.WellFormed) {roots : OrderedSet CellId} {a b : CellId}
    (hedge : k.graph.Edge a b)
    (hout : b ∉ (k.graph.plan roots).blocked.map (·.1) ++ (k.graph.plan roots).order) :
    a ∉ (k.graph.plan roots).blocked.map (·.1) ++ (k.graph.plan roots).order := by
  have hperm := plan_perm hg roots
  rw [hperm.mem_iff] at hout ⊢
  exact fun hin => hout (Graph.descendants_closed hg hin (.single hedge))

omit [HashFunction] in
/-- The invariant holds when the first cell is come to. -/
theorem underway_readied (hg : k.graph.WellFormed) (roots : OrderedSet CellId) :
    Underway k ((k.graph.plan roots).blocked.map (·.1)) (k.graph.plan roots).order
      (k.readied roots {}) := by
  have hperm := plan_perm hg roots
  have hbegin : Underway k [] _ { kernel := k, report := {} } :=
    underway_begin (hperm.nodup_iff.2 (Graph.descendants_nodup hg))
      fun id hid => Graph.contains_of_mem_descendants (hperm.mem_iff.1 hid)
  have hblocked := hbegin.blocks _ hg
  rw [List.nil_append] at hblocked
  exact hblocked.queue

end Kernel

end Notebook
