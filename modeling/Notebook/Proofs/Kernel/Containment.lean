/-
  Notebook.Proofs.Kernel.Containment — a failure in a round reaches everything below it, and
  nothing else.

  A round looks only at the direct parents of a cell.  That is enough: a cell that is broken breaks
  its children when their turn comes, so at the end of the round the broken cells are closed under
  edges.

  Main results:
    * `Round.requests` / `runOnce_congr` — the executor matters to a round only through the requests
      that are listed here,
    * `Underway.failed_closed` — whatever depends on a broken cell is broken,
    * `runOnce_contains_failures` — one fate for each cell of the run-set, requests in dependency
      order and on idle parents, failures contained, and all other cells as they were.
-/
import Mathlib
import Notebook.Digest.Sha256
import Notebook.Proofs.Kernel.Reachable

namespace Notebook.Kernel

open Relation

variable [HashFunction] {κ σ : Type} {k k' k₀ : Kernel κ σ} {x y : Executor κ σ}
  {forced roots : OrderedSet CellId} {r : Round κ σ} {done rest : List CellId} {id : CellId}
  {c : Cell}

/-! ## §1. What a round asks of the executor. -/

namespace Round

/-- What the executor is asked when the round comes to a cell, if it is asked anything. -/
def request? (forced : OrderedSet CellId) (r : Round κ σ) (id : CellId) : Option Request :=
  if r.kernel.session.aborted || (r.failedParent? id).isSome then none else
  match r.kernel.graph.cell? id with
  | none => none
  | some c =>
    match ((r.kernel.begun c).serve? c (forced.has id) ((r.kernel.begun c).identityOf? c)).1 with
    | some _ => none
    | none => some (r.kernel.requestOf c)

/-- The requests of a round that comes to the given cells, each with the kernel that makes it. -/
def requests (x : Executor κ σ) (forced : OrderedSet CellId) :
    Round κ σ → List CellId → List (Request × Kernel κ σ)
  | _, [] => []
  | r, id :: rest =>
    ((r.request? forced id).map fun q => (q, r.kernel)).toList ++
      requests x forced (r.visit x forced id) rest

theorem request?_cell {q : Request} (h : r.request? forced id = some q) : q.cell = id := by
  unfold request? at h
  split at h
  · cases h
  · split at h
    · cases h
    · rename_i c hc
      split at h
      · cases h
      · obtain rfl := Option.some.inj h
        exact Graph.cell?_id hc

theorem request?_free {q : Request} (h : r.request? forced id = some q) :
    r.failedParent? id = none := by
  unfold request? at h
  split at h
  · cases h
  · rename_i hfree
    cases hparent : r.failedParent? id with
    | none => rfl
    | some p => simp [hparent] at hfree

/-- Coming to a cell depends on the executor only through the request that it makes. -/
theorem visit_congr (h : ∀ q, r.request? forced id = some q → y.execute q = x.execute q) :
    r.visit y forced id = r.visit x forced id := by
  unfold visit
  cases hrun : r.kernel.session.aborted with
  | true => rfl
  | false =>
    cases hparent : r.failedParent? id with
    | some p => rfl
    | none =>
      have hcell : r.kernel.runCell y id (forced.has id) =
          r.kernel.runCell x id (forced.has id) := by
        unfold request? at h
        rw [hrun, hparent] at h
        unfold runCell
        cases hc : r.kernel.graph.cell? id with
        | none => rfl
        | some c =>
          rw [hc] at h
          dsimp only at h ⊢
          rw [runLive_eq, runLive_eq]
          generalize (r.kernel.begun c).serve? c (forced.has id)
            ((r.kernel.begun c).identityOf? c) = served at h ⊢
          obtain ⟨found, k₁⟩ := served
          cases found with
          | some output => rfl
          | none =>
            have hask := h (r.kernel.requestOf c) rfl
            simp only [execute, hask]
      simp only [hcell]

theorem visits_congr (ids : List CellId)
    (h : ∀ q ∈ requests x forced r ids, y.execute q.1 = x.execute q.1) :
    ids.foldl (visit y forced) r = ids.foldl (visit x forced) r := by
  induction ids generalizing r with
  | nil => rfl
  | cons first rest ih =>
    have hfirst : r.visit y forced first = r.visit x forced first := by
      refine visit_congr fun q hq => h (q, r.kernel) ?_
      simp [requests, hq]
    rw [List.foldl_cons, List.foldl_cons, hfirst]
    refine ih fun q hq => h q ?_
    simp [requests, hq]

/-- A cell counts as executed or as failed just when the executor was asked. -/
theorem visit_asked (x : Executor κ σ) (hc : r.kernel.graph.cell? c.id = some c)
    (hrun : r.kernel.session.aborted = false) :
    ((r.visit x forced c.id).report.executed ++ (r.visit x forced c.id).report.failed).Perm
      (r.report.executed ++ r.report.failed ++
        ((r.request? forced c.id).map Request.cell).toList) := by
  unfold visit request?
  rw [hrun]
  cases hparent : r.failedParent? c.id with
  | some p => simp [skip]
  | none =>
    unfold runCell
    rw [hc]
    dsimp only
    rw [runLive_eq]
    generalize (r.kernel.begun c).serve? c (forced.has c.id)
      ((r.kernel.begun c).identityOf? c) = served
    obtain ⟨found, k₁⟩ := served
    cases found with
    | some output => simp
    | none =>
      dsimp only [execute]
      generalize k₁.perform c.id (x.execute (r.kernel.requestOf c)) = performed
      obtain ⟨result, frame, k₂⟩ := performed
      have hcell : (r.kernel.requestOf c).cell = c.id := rfl
      refine List.perm_iff_count.2 fun a => ?_
      cases result <;>
        simp only [Bool.false_eq_true, if_false, Bool.false_or, Option.isSome_none, hcell,
          Option.map_some, Option.toList_some, List.count_append, List.count_cons,
          List.count_nil] <;>
        omega

end Round

/-- The requests of a whole round. -/
def requests (k : Kernel κ σ) (x : Executor κ σ) (roots forced : OrderedSet CellId) :
    List (Request × Kernel κ σ) :=
  Round.requests x forced (k.readied roots {}) (k.graph.plan roots).order

/-- A round depends on the executor only through its requests. -/
theorem runOnce_congr (report : RunReport)
    (h : ∀ q ∈ k.requests x roots forced, y.execute q.1 = x.execute q.1) :
    k.runOnce y roots forced report = k.runOnce x roots forced report := by
  rw [runOnce_report, runOnce_report k x, runOnce_eq, runOnce_eq, Round.visits_congr _ h]

omit [HashFunction] in
/-- Blocking and queueing cells executes none. -/
theorem readied_report (k : Kernel κ σ) (roots : OrderedSet CellId) :
    (k.readied roots {}).report.executed = [] ∧ (k.readied roots {}).report.failed = [] := by
  have hblock : ∀ (blocked : List (CellId × BlockReason)) (r : Round κ σ),
      (blocked.foldl (fun r b => r.block b.1 b.2) r).report.executed = r.report.executed ∧
        (blocked.foldl (fun r b => r.block b.1 b.2) r).report.failed = r.report.failed := by
    intro blocked
    induction blocked with
    | nil => intro r; exact ⟨rfl, rfl⟩
    | cons b rest ih => intro r; exact ih _
  exact hblock (k.graph.plan roots).blocked { kernel := k, report := {} }

/-- The requests of a round under way: in the order of the plan, each made while all parents of its
cell are idle, and one for each cell that is executed or fails. -/
theorem Underway.requests (x : Executor κ σ) (forced : OrderedSet CellId)
    (h : Underway k₀ done rest r) (hg : k₀.graph.WellFormed)
    (hrest : k₀.AtRest) (hordered : rest.Pairwise fun a b => ¬ k₀.graph.Edge b a)
    (hrun : (rest.foldl (Round.visit x forced) r).kernel.session.aborted = false) :
    ((Round.requests x forced r rest).map (·.1.cell)).Sublist rest ∧
      (∀ q ∈ Round.requests x forced r rest, ∀ p ∈ k₀.graph.parents q.1.cell,
        q.2.graph.status? p = some .idle) ∧
      ((rest.foldl (Round.visit x forced) r).report.executed ++
        (rest.foldl (Round.visit x forced) r).report.failed).Perm
        (r.report.executed ++ r.report.failed ++
          (Round.requests x forced r rest).map (·.1.cell)) := by
  induction rest generalizing done r with
  | nil => exact ⟨.slnil, fun q hq => absurd hq List.not_mem_nil, by simp [Round.requests]⟩
  | cons first rest ih =>
    obtain ⟨c, rfl, hc⟩ := h.next_live
    have hnow := goesOn_of_visits hrun
    obtain ⟨hfirst, hordered⟩ := List.pairwise_cons.1 hordered
    have hvisited := visit_cases x forced hc hnow
    obtain ⟨hsub, hidle, hperm⟩ := ih (h.visit hg hrest hfirst hc hvisited) hordered hrun
    -- one request for the first cell or none, and then those of the rest
    have hasked : ((r.visit x forced c.id).report.executed ++ _).Perm _ :=
      Round.visit_asked x hc hnow
    rw [List.foldl_cons, Round.requests, List.map_append]
    cases hask : r.request? forced c.id with
    | none =>
      rw [hask, Option.map_none, Option.toList_none, List.append_nil] at hasked
      refine ⟨by simpa using hsub.cons c.id, by simpa using hidle, ?_⟩
      exact hperm.trans (by simpa using hasked.append_right _)
    | some q =>
      rw [hask] at hasked
      have hcell := Round.request?_cell hask
      refine ⟨?_, fun q' hq' p hp => ?_, ?_⟩
      · simpa [hcell] using hsub.cons_cons c.id
      · rcases List.mem_append.1 hq' with hq' | hq'
        · -- the request just made
          obtain rfl : q' = (q, r.kernel) := by simpa using hq'
          have hedge := (Graph.mem_parents hg).1 hp
          rw [hcell] at hedge
          exact h.parents_idle hg hrest hfirst (Round.request?_free hask)
            ((Graph.edge_congr h.shape).2 hedge)
        · exact hidle q' hq' p hp
      · refine hperm.trans ((hasked.append_right _).trans ?_)
        simp

/-! ## §2. What is below a broken cell is broken. -/

omit [HashFunction] in
/-- When a round is over, the broken cells of its run-set are closed under edges. -/
theorem Underway.failed_closed (h : Underway k₀ done [] r) (hg : k₀.graph.WellFormed)
    (hdone : ∀ id, id ∈ done ↔ id ∈ k₀.graph.descendants roots) {a b : CellId}
    (ha : a ∈ r.failed) (hpath : ReflTransGen k₀.graph.Edge a b) : b ∈ r.failed := by
  induction hpath with
  | refl => exact ha
  | @tail b d hab hedge ih =>
    by_contra hnot
    have hmem := Graph.descendants_closed hg ((hdone b).1 (h.failed_mem ih)) (.single hedge)
    have hfine := h.fine d ((hdone d).2 hmem) hnot
    have hidle := hfine.parents b ((Graph.edge_congr h.shape).2 hedge)
    rcases (h.broken b ih).status with hstatus | hstatus <;> simp [hstatus] at hidle

omit [HashFunction] in
theorem Asked.broken (h : Asked k k') (hb : k.Broken id) : k'.Broken id :=
  ⟨by rw [h.graph]; exact hb.status, by rw [h.errors]; exact hb.error, by
    rw [h.graph, h.names]
    exact hb.unbound⟩

omit [HashFunction] in
theorem Asked.fine (h : Asked k k') (hf : k.Fine id) : k'.Fine id :=
  ⟨by rw [h.graph]; exact hf.status, by rw [h.errors]; exact hf.error, by
    rw [h.graph]
    exact hf.parents⟩

omit [HashFunction] in
theorem collectGarbage_asked (k : Kernel κ σ) : Asked k k.collectGarbage := .told k _ _

/-- A round that was not stopped, seen from its end: the invariant of rounds holds with nothing left
to do, and what follows only asks for cells to be run. -/
theorem InOrder.round_over {S : CellSpec → Prop} (hk : InOrder S k)
    (hrun : (k.runOnce x roots forced {}).2.session.aborted = false) :
    ∃ r : Round κ σ, r = (k.graph.plan roots).order.foldl (Round.visit x forced)
        (k.readied roots {}) ∧
      Underway k ((k.graph.plan roots).blocked.map (·.1) ++ (k.graph.plan roots).order) [] r ∧
      r.kernel.session.aborted = false ∧
      (k.runOnce x roots forced {}).1 = r.report ∧
      Asked r.kernel (k.runOnce x roots forced {}).2 := by
  rw [runOnce_eq] at hrun ⊢
  dsimp only at hrun ⊢
  rw [scheduleWrites_session] at hrun
  have hover := (underway_readied hk.wellFormed roots).visits x forced
    (P := fun _ _ _ => True) hk.wellFormed hk.atRest (fun _ _ _ _ _ _ _ _ _ _ => trivial)
    (Graph.plan_order_pairwise hk.wellFormed) trivial hrun
  exact ⟨_, rfl, hover.1, hrun, rfl,
    (collectGarbage_asked _).trans (.scheduleWrites (hover.1.wellFormed hk.wellFormed))⟩

/-! ## §3. Containment. -/

/-- Failures are contained within a round that is not stopped, from any kernel that can come about,
with any executor:
each cell of the run-set meets exactly one fate;
the executor is asked at most once for a cell, namely when it counts as executed or as failed, only
while all parents of the cell are idle, definers before referrers, and it matters in no other way;
whatever is below a cell that failed, was skipped or was blocked is stale or in error with its error
recorded and its public names unbound, and was neither executed nor served from the cache;
and the cells outside of the run-set keep their status, their error and their public bindings. -/
theorem runOnce_contains_failures (hk : Reachable y k) {report report' : RunReport}
    (hround : k.runOnce x roots forced report = (report', k'))
    (hrun : k'.session.aborted = false) :
    ∃ new : RunReport, report' = report.append new ∧
      (new.cells.Nodup ∧ new.cells.Perm (k.graph.descendants roots)) ∧
      (((k.requests x roots forced).map (·.1.cell)).Nodup ∧
        ((k.requests x roots forced).map (·.1.cell)).Perm (new.executed ++ new.failed) ∧
        (∀ q ∈ k.requests x roots forced, ∀ p ∈ k.graph.parents q.1.cell,
          q.2.graph.status? p = some .idle) ∧
        ((k.requests x roots forced).map (·.1.cell)).Pairwise (fun a b => ¬ k.graph.Edge b a) ∧
        ∀ z : Executor κ σ, (∀ q ∈ k.requests x roots forced, z.execute q.1 = x.execute q.1) →
          k.runOnce z roots forced report = (report', k')) ∧
      (∀ a ∈ new.failed ++ new.skipped ++ new.blocked, ∀ b, ReflTransGen k.graph.Edge a b →
        (k'.graph.status? b = some .stale ∨ k'.graph.status? b = some .error) ∧
        (k'.errors.get? b).isSome = true ∧
        (∀ c, k.graph.cell? b = some c → ∀ name, c.defs.has name = true →
          k.graph.isPrivate name = false → k'.names.get? name = none) ∧
        b ∉ new.executed ∧ b ∉ new.cached) ∧
      (∀ id, id ∉ k.graph.descendants roots →
        k'.status? id = k.status? id ∧ k'.errors.get? id = k.errors.get? id ∧
        ∀ c, k.graph.cell? id = some c → ∀ name, c.defs.has name = true →
          k.graph.isPrivate name = false → k'.names.get? name = k.names.get? name) := by
  have horder := hk.inOrder
  have hg := horder.wellFormed
  rw [runOnce_report] at hround
  obtain ⟨rfl, rfl⟩ := Prod.mk.inj hround
  obtain ⟨r, hr, hover, hnow, hreport, hasked⟩ := horder.round_over hrun
  have hperm := plan_perm hg roots
  have hnodup : (k.graph.descendants roots).Nodup := Graph.descendants_nodup hg
  have hcells : r.report.cells.Perm (k.graph.descendants roots) := hover.reported.trans hperm
  obtain ⟨hsub, hidle, hcalled⟩ := (underway_readied hg roots).requests x
    forced hg horder.atRest (Graph.plan_order_pairwise hg) (hr ▸ hnow)
  obtain ⟨hexecuted, hfailed⟩ := readied_report k roots
  rw [hexecuted, hfailed, ← hr, List.nil_append] at hcalled
  refine ⟨_, rfl, ?_, ?_, ?_, ?_⟩
  · rw [hreport]
    exact ⟨hcells.nodup_iff.2 hnodup, hcells⟩
  -- the requests go along the plan, and a plan has each cell once and parents first
  · refine ⟨hsub.nodup (Graph.plan_order_nodup hg), ?_, hidle,
      (Graph.plan_order_pairwise hg).sublist hsub, fun z hz => ?_⟩
    · rw [hreport]
      exact hcalled.symm
    · rw [runOnce_congr report hz, runOnce_report]
  -- below a cell without outputs: the failed cells are closed under edges when the round is over
  · rw [hreport]
    intro a ha b hpath
    have hb := hover.failed_closed hg (fun id => hperm.mem_iff) ((hover.mem_failed a).2 ha) hpath
    have hbroken := hasked.broken (hover.broken b hb)
    refine ⟨hbroken.status, hbroken.error, fun c hc name hdef hpub => ?_, ?_⟩
    · have hshape : (k.runOnce x roots forced {}).2.graph.shape = k.graph.shape := by
        rw [hasked.graph]
        exact hover.shape
      obtain ⟨d, hd, hds⟩ := Graph.cell?_congr hshape.symm hc
      obtain ⟨-, -, hdefs, -⟩ := Cell.shape_eq_iff.1 hds
      exact hbroken.unbound d hd name (hdefs ▸ hdef) (Graph.isPrivate_congr hshape name ▸ hpub)
    · have hnot : b ∉ r.report.executed ++ r.report.cached := by
        intro hin
        exact (hover.mem_output.1 hin).2 hb
      simpa using hnot
  -- outside of the run-set
  · intro id hout
    rw [← hperm.mem_iff] at hout
    refine ⟨?_, ?_, fun c hc name hdef hpub => ?_⟩
    · unfold status?
      rw [hasked.parked, hover.parked, hasked.graph,
        hover.outside_status id hout List.not_mem_nil]
    · rw [hasked.errors, hover.outside_errors id hout List.not_mem_nil]
    · obtain rfl := Graph.cell?_id hc
      rw [hasked.names, hover.outside_defs hg hc hout hdef hpub]

end Notebook.Kernel

/-! ## §4. A failure at the head of a chain. -/

namespace Notebook

/-- Gives no outputs, and refuses the code `fail`. -/
def Executor.refuser : Executor Unit Unit where
  execute q := .done (if q.code = "fail" then .error "refused" else .ok {})
  observe _ _ := .done (.ok ())

/-- A chain of three cells whose first one is refused, and a cell apart, all to be run. -/
def Kernel.refusedChain : Kernel Unit Unit :=
  ({ config := { cellCache := false }, session := { own := () } } : Kernel Unit Unit).registerCells
    [⟨⟨0⟩, "fail", .ofList ["x"], .empty⟩, ⟨⟨1⟩, "y = x", .ofList ["y"], .ofList ["x"]⟩,
      ⟨⟨2⟩, "z = y", .ofList ["z"], .ofList ["y"]⟩, ⟨⟨3⟩, "u = 1", .ofList ["u"], .empty⟩]

theorem Kernel.refusedChain_contained :
    let _ := Sha256.hashFunction
    let ran := refusedChain.runOnce .refuser refusedChain.pending refusedChain.forced {}
    Reachable Executor.refuser refusedChain ∧ ran.2.session.aborted = false ∧
      ran.1 = { executed := [⟨3⟩], failed := [⟨0⟩], skipped := [⟨1⟩, ⟨2⟩] } ∧
      (ran.2.errors.get? ⟨2⟩).isSome = true := by
  intro _ ran
  have hstart : Kernel.start { cellCache := false } {} 0 () =
      .ok ({ config := { cellCache := false }, session := { own := () } } : Kernel Unit Unit) := rfl
  have hreach : Reachable Executor.refuser refusedChain := .apply (.register _) (.start hstart)
  have hend : (ran.2.session.aborted, ran.1) =
      (false, { executed := [⟨3⟩], failed := [⟨0⟩], skipped := [⟨1⟩, ⟨2⟩] }) := by cbv
  obtain ⟨hrun, hreport⟩ := Prod.mk.inj hend
  have hround : refusedChain.runOnce .refuser refusedChain.pending refusedChain.forced {} =
      (ran.1, ran.2) := rfl
  obtain ⟨new, hnew, -, -, hcontained, -⟩ := runOnce_contains_failures hreach hround hrun
  have hskipped : (⟨2⟩ : CellId) ∈ new.skipped := by
    have := congrArg RunReport.skipped (hreport.symm.trans hnew)
    simp only [RunReport.append, List.nil_append] at this
    rw [← this]
    simp
  have hbroken : (⟨2⟩ : CellId) ∈ new.failed ++ new.skipped ++ new.blocked := by simp [hskipped]
  exact ⟨hreach, hrun, hreport, (hcontained ⟨2⟩ hbroken ⟨2⟩ .refl).2.1⟩

end Notebook
