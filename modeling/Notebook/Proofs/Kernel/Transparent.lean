/-
  Notebook.Proofs.Kernel.Transparent — keeping results changes nothing that a notebook shows.

  Two kernels that differ in whether they keep results are given the same operations.  With an
  executor that computes they go in step: every cell gets in both what is computed for it, whether
  it is executed or served, so that they stay twins.

  For this a cell must be screened when it is run.  A name is bound only by a cell that defines it.
  So it is enough that no private name of one cell is read by a cell that does not define it.  If
  one is, then the binding goes into what the executor is given but not into the identity of the
  cell, and a result can be served that would not be computed again.

  Main results:
    * `Sheltered.screened` — cells that are secluded from each other are screened,
    * `Abreast.visit` / `runOnce_twin` — rounds go in step, cell by cell,
    * `InStep.carryOut?` — and so does every operation,
    * `carryOutAll?_transparent` — with and without a cache the names and the statuses agree.
-/
import Mathlib
import Notebook.Proofs.Kernel.History

namespace Notebook

open Relation

/-- No cell reads a private name that another cell defines, unless it defines the name itself. -/
def CellSpec.Secluded (marker : String) (specs : List CellSpec) : Prop :=
  ∀ s ∈ specs, ∀ s' ∈ specs, ∀ name ∈ s.defs.toList, isPrivateName marker name = true →
    s'.refs.has name = true → s'.defs.has name = true

instance (marker : String) (specs : List CellSpec) : Decidable (CellSpec.Secluded marker specs) :=
  inferInstanceAs (Decidable (∀ s ∈ specs, ∀ s' ∈ specs, ∀ name ∈ s.defs.toList,
    isPrivateName marker name = true → s'.refs.has name = true → s'.defs.has name = true))

namespace Kernel

variable [HashFunction] {κ σ : Type} {k k' k₁ k₁' : Kernel κ σ} {c : Cell} {f : Computation}
  {m : String} {x : Executor κ σ} {rounds : Nat} {specs : List CellSpec} {r r' : Round κ σ}

/-! ## §1. Kernels whose cells are screened. -/

/-- A calm kernel in which every bound name is defined by one of the described cells. -/
structure Sheltered (f : Computation) (m : String) (specs : List CellSpec) (k : Kernel κ σ) :
    Prop extends Calm f (· ∈ specs) k where
  marker : k.graph.privateMarker = m
  bound : ∀ name b, k.names.get? name = some b → ∃ s ∈ specs, s.defs.has name = true

namespace Sheltered

/-- In a kernel with secluded cells every cell is screened. -/
theorem screened (hk : Sheltered f m specs k) (hsecluded : CellSpec.Secluded m specs)
    {id : CellId} (hc : k.graph.cell? id = some c) : k.Screened c := by
  intro name href hdef hprivate
  unfold Graph.isPrivate at hprivate
  rw [hk.marker] at hprivate
  cases hb : k.names.get? name with
  | none => rfl
  | some b =>
    -- a cell that binds the name defines it, and so this one would define it as well
    obtain ⟨s, hs, hbinds⟩ := hk.bound name b hb
    have hown := hsecluded s hs c.spec (hk.cells id c hc) name (OrderedSet.mem_toList.2 hbinds)
      hprivate href
    rw [show c.spec.defs.has name = false from hdef] at hown
    cases hown

/-- Names that were bound before are defined by one of the described cells. -/
theorem after (hk : Sheltered f m specs k) (hcalm : Calm f (· ∈ specs) k')
    (hmarker : k'.graph.privateMarker = k.graph.privateMarker)
    (hnames : ∀ name b, k'.names.get? name = some b →
      k.names.get? name = some b ∨ ∃ s ∈ specs, s.defs.has name = true) :
    Sheltered f m specs k' where
  toCalm := hcalm
  marker := hmarker.trans hk.marker
  bound := by
    intro name b hb
    rcases hnames name b hb with hb | hs
    · exact hk.bound name b hb
    · exact hs

/-- A cell that settles binds names that it defines. -/
theorem settled (hk : Sheltered f m specs k) {id : CellId} (hc : k.graph.cell? id = some c)
    {now : CellStatus} {e : Option CellError} {outputs : Table String Binding}
    (h : Settled k k' c now e outputs) (hcalm : Calm f (· ∈ specs) k') :
    Sheltered f m specs k' := by
  refine hk.after hcalm (marker_congr h.shape) fun name b hb => ?_
  rw [h.names] at hb
  split at hb
  · rename_i hdef
    exact .inr ⟨c.spec, hk.cells id c hc, hdef⟩
  · exact .inl hb

/-- Nothing is bound when a cell fails. -/
theorem failCell (hk : Sheltered f m specs k) (id : CellId) (now : CellStatus) (e : CellError) :
    Sheltered f m specs (k.failCell id now e) := by
  have hshape : (k.failCell id now e).graph.shape = k.graph.shape := by
    unfold Kernel.failCell
    simp only [unbindAll_eq]
    exact Graph.shape_setStatus ..
  have hnames : ∀ name b, (k.failCell id now e).names.get? name = some b →
      k.names.get? name = some b := by
    intro name b hb
    unfold Kernel.failCell at hb
    simp only [unbindAll_eq] at hb
    change (List.foldl Namespace.remove k.names _).get? name = some b at hb
    rw [Namespace.get?_removeAll] at hb
    split at hb
    · cases hb
    · exact hb
  obtain ⟨elements, hsession⟩ := failCell_session k id now e
  refine hk.after (hk.toCalm.after (cells_congr hshape hk.cells) (hk.names.of_subset hnames) ?_)
    (marker_congr hshape) fun name b hb => .inl (hnames name b hb)
  rw [hsession]
  exact ⟨rfl, rfl, rfl, rfl, fun _ _ _ h => h⟩

/-- Names are bound by cells that define them when a cell runs. -/
theorem ran (hk : Sheltered f m specs k) (hc : k.graph.cell? c.id = some c) {outcome : Outcome}
    (h : Ran f (· ∈ specs) k c outcome k') : Sheltered f m specs k' := by
  have hgot := h.got hc
  unfold Got at hgot
  split at hgot
  · exact hk.settled hc hgot h.calm
  · exact hk.settled hc hgot h.calm

/-- A status is no part of it. -/
theorem setStatus (hk : Sheltered f m specs k) (id : CellId) (now : CellStatus) :
    Sheltered f m specs (k.setStatus id now) := by
  have hshape : (k.setStatus id now).graph.shape = k.graph.shape := Graph.shape_setStatus ..
  exact hk.after (hk.toCalm.after (cells_congr hshape hk.cells) hk.names (.refl _))
    (marker_congr hshape) fun name b hb => .inl hb

theorem queueAll (hk : Sheltered f m specs k) (ids : List CellId) :
    Sheltered f m specs (ids.foldl (fun k id => k.setStatus id .queued) k) := by
  induction ids generalizing k with
  | nil => exact hk
  | cons id rest ih => exact ih (hk.setStatus id .queued)

/-- Evicting elements is up to the session. -/
theorem collectGarbage (hk : Sheltered f m specs k) : Sheltered f m specs k.collectGarbage :=
  hk.after (hk.toCalm.after hk.cells hk.names ⟨rfl, rfl, rfl, rfl, fun _ _ _ h => h⟩) rfl
    fun _ _ hb => .inl hb

end Sheltered

/-! ## §2. Rounds in step. -/

/-- Two rounds that have come equally far. -/
structure Abreast (f : Computation) (m : String) (specs : List CellSpec) (r r' : Round κ σ) :
    Prop where
  twin : Twin r.kernel r'.kernel
  failed : r'.failed = r.failed
  left : Sheltered f m specs r.kernel
  right : Sheltered f m specs r'.kernel

namespace Abreast

/-- A cell that fails in both. -/
theorem failCell (h : Abreast f m specs r r') (id : CellId) (now : CellStatus) (e : CellError)
    (report report' : RunReport) :
    Abreast f m specs
      { kernel := r.kernel.failCell id now e, report, failed := id :: r.failed }
      { kernel := r'.kernel.failCell id now e, report := report', failed := id :: r'.failed } :=
  ⟨h.twin.failCell id now e, congrArg (id :: ·) h.failed, h.left.failCell id now e,
    h.right.failCell id now e⟩

theorem block (h : Abreast f m specs r r') (id : CellId) (reason : BlockReason) :
    Abreast f m specs (r.block id reason) (r'.block id reason) := by
  cases reason with
  | inCycle cycle => exact h.failCell id ..
  | downstreamOf ancestor => exact h.failCell id ..

theorem failedParent? (h : Abreast f m specs r r') (id : CellId) :
    r'.failedParent? id = r.failedParent? id := by
  unfold Round.failedParent?
  rw [h.twin.graph, h.failed]

/-- A cell that is run is the round's next kernel, and counts as failed if it failed. -/
theorem visit_run {forced : OrderedSet CellId} {id : CellId} {outcome : Outcome}
    (hgoesOn : r.kernel.session.aborted = false) (hfree : r.failedParent? id = none)
    (hrun : r.kernel.runCell x id (forced.has id) = (outcome, k)) :
    (r.visit x forced id).kernel = k ∧
      (r.visit x forced id).failed = if outcome = .failed then id :: r.failed else r.failed := by
  unfold Round.visit
  rw [if_neg (by simp [hgoesOn]), hfree]
  dsimp only
  rw [hrun]
  cases outcome <;> exact ⟨rfl, rfl⟩

/-- **Coming to a cell keeps two rounds abreast.** -/
theorem visit (hash : HashFunction.CollisionFree) (hx : x.Computes f) (hf : f.IsPlain)
    (hsecluded : CellSpec.Secluded m specs) (hshort : ∀ s ∈ specs, s.HasShortTexts)
    (h : Abreast f m specs r r') (forced : OrderedSet CellId) (id : CellId) :
    Abreast f m specs (r.visit x forced id) (r'.visit x forced id) := by
  have hparent := h.failedParent? id
  cases hfound : r.failedParent? id with
  | some ancestor =>
    -- passed over in both
    rw [hfound] at hparent
    unfold Round.visit
    rw [if_neg (by simp [h.left.goesOn]), if_neg (by simp [h.right.goesOn]), hfound, hparent]
    exact h.failCell id ..
  | none =>
    rw [hfound] at hparent
    have hcell : r'.kernel.graph.cell? id = r.kernel.graph.cell? id := by rw [h.twin.graph]
    cases hc : r.kernel.graph.cell? id with
    | none =>
      have hrun : ∀ {k : Kernel κ σ}, k.graph.cell? id = none →
          k.runCell x id (forced.has id) = (.failed, k) := by
        intro k hnone
        unfold runCell
        rw [hnone]
      obtain ⟨hkernel, hfailed⟩ := visit_run h.left.goesOn hfound (hrun hc)
      obtain ⟨hkernel', hfailed'⟩ := visit_run h.right.goesOn hparent (hrun (hcell.trans hc))
      refine ⟨hkernel ▸ hkernel' ▸ h.twin, ?_, hkernel ▸ h.left, hkernel' ▸ h.right⟩
      rw [hfailed, hfailed', h.failed]
    | some c =>
      obtain rfl := Graph.cell?_id hc
      have hc' := hcell.trans hc
      -- in both the cell gets what is computed for it
      have hran := h.left.toCalm.runLive hash hx hf hc (hshort _ (h.left.cells _ c hc))
        (h.left.screened hsecluded hc) (forced.has c.id)
      have hran' := h.right.toCalm.runLive hash hx hf hc' (hshort _ (h.right.cells _ c hc'))
        (h.right.screened hsecluded hc') (forced.has c.id)
      obtain ⟨hkernel, hfailed⟩ := visit_run h.left.goesOn hfound
        (runCell_live x (forced.has c.id) hc)
      obtain ⟨hkernel', hfailed'⟩ := visit_run h.right.goesOn hparent
        (runCell_live x (forced.has c.id) hc')
      refine ⟨?_, ?_, hkernel ▸ h.left.ran hc hran, hkernel' ▸ h.right.ran hc' hran'⟩
      · rw [hkernel, hkernel']
        exact hran.twin.symm.trans ((h.twin.computed f c).trans hran'.twin)
      · have hsame := hran'.failed
        rw [h.twin.inputs, h.twin.missing] at hsame
        rw [hfailed, hfailed', h.failed]
        exact if_congr (hsame.trans hran.failed.symm) rfl rfl

/-- Rounds of twins are abreast once the blocked cells are down and the others are queued. -/
theorem readied (htwin : Twin k k') (hk : Sheltered f m specs k) (hk' : Sheltered f m specs k')
    (roots : OrderedSet CellId) :
    Abreast f m specs (k.readied roots {}) (k'.readied roots {}) := by
  have hbegin : Abreast f m specs ({ kernel := k, report := {} } : Round κ σ)
      { kernel := k', report := {} } := ⟨htwin, rfl, hk, hk'⟩
  have hblocked := List.foldl_rel (l := (k.graph.plan roots).blocked) hbegin
    fun b _ _ _ h => h.block b.1 b.2
  unfold Kernel.readied
  rw [htwin.graph]
  exact ⟨List.foldl_rel hblocked.twin fun id _ _ _ h => h.setStatus id .queued, hblocked.failed,
    hblocked.left.queueAll _, hblocked.right.queueAll _⟩

end Abreast

/-- **A round keeps twins twins.** -/
theorem runOnce_twin (hash : HashFunction.CollisionFree) (hx : x.Computes f) (hf : f.IsPlain)
    (hsecluded : CellSpec.Secluded m specs) (hshort : ∀ s ∈ specs, s.HasShortTexts)
    (htwin : Twin k k') (hk : Sheltered f m specs k) (hk' : Sheltered f m specs k')
    (hg : k.graph.WellFormed) (roots forced : OrderedSet CellId) :
    Twin (k.runOnce x roots forced {}).2 (k'.runOnce x roots forced {}).2 ∧
      Sheltered f m specs (k.runOnce x roots forced {}).2 ∧
      Sheltered f m specs (k'.runOnce x roots forced {}).2 ∧
      (k.runOnce x roots forced {}).2.pending = k.pending := by
  have hdone := List.foldl_rel (l := (k.graph.plan roots).order)
    (Abreast.readied htwin hk hk' roots)
    fun id _ _ _ h => h.visit hash hx hf hsecluded hshort forced id
  have hleft := hdone.left.collectGarbage
  have hright := hdone.right.collectGarbage
  -- nothing was written, so that no reader is asked for
  rw [runOnce_eq, runOnce_eq, htwin.graph]
  dsimp only
  rw [scheduleWrites_of_none hleft.writes, scheduleWrites_of_none hright.writes]
  exact ⟨((Twin.withSession _ _).symm.trans hdone.twin).trans (.withSession _ _), hleft, hright,
    (visitedAll_status hg x roots forced).1.pending⟩

/-! ## §3. Operations in step. -/

/-- A sheltered kernel in order, whose cells are among the described ones whether they are live or
wait. -/
structure Tended (f : Computation) (m : String) (specs : List CellSpec) (k : Kernel κ σ) :
    Prop extends InOrder (· ∈ specs) k, Sheltered f m specs k

namespace Tended

theorem edit (hk : Tended f m specs k) (h : Edit (· ∈ specs) k k') : Tended f m specs k' :=
  ⟨hk.toInOrder.edits (.single h), hk.toSheltered.after (hk.toCalm.edit hk.wellFormed h)
    (h.marker hk.wellFormed) fun _ _ hb => .inl (h.names_subset hb)⟩

theorem edits (hk : Tended f m specs k) (h : ReflTransGen (Edit (· ∈ specs)) k k') :
    Tended f m specs k' := by
  induction h with
  | refl => exact hk
  | tail _ hstep ih => exact ih.edit hstep

theorem deleteCell (hk : Tended f m specs k) (id : CellId) :
    Tended f m specs (k.orUnchanged (k.deleteCell id)).2 := by
  cases h : k.deleteCell id with
  | ok k' => exact hk.edits (deleteCell_edits hk.toCoherent hk.waitFor h)
  | error e => exact hk

theorem runCells (hk : Tended f m specs k) (cells : List CellId) :
    Tended f m specs (k.runCells cells).2 := by
  have hasked := Asked.runCells k cells
  refine ⟨hk.toInOrder.asked hasked, hk.toSheltered.after (hk.toCalm.runCells cells) ?_ ?_⟩
  · rw [hasked.graph]
  · rw [hasked.names]
    exact fun _ _ hb => .inl hb

theorem clearPending (hk : Tended f m specs k) : Tended f m specs k.clearPending :=
  ⟨hk.toInOrder.clearPending, hk.toSheltered.after
    (hk.toCalm.after hk.cells hk.names (.refl _)) rfl fun _ _ hb => .inl hb⟩

/-- A new kernel whose cache is empty. -/
theorem start {config : Config} {disk : Disk} {clock : Nat} {own : σ}
    (h : Kernel.start config disk clock own = .ok k) (hempty : k.session.cache.isEmpty = true) :
    Tended f config.privateMarker specs k := by
  refine ⟨.start h, .start h hempty, start_marker h, fun name b hb => ?_⟩
  obtain ⟨-, cache, heq⟩ := start_eq h
  rw [heq] at hb
  cases hb

end Tended

/-- Two kernels that have been given the same operations. -/
structure InStep (f : Computation) (m : String) (specs : List CellSpec) (k k' : Kernel κ σ) :
    Prop where
  twin : Twin k k'
  left : Tended f m specs k
  right : Tended f m specs k'

namespace InStep

/-- Runs keep kernels in step. -/
theorem runUntilIdle (hash : HashFunction.CollisionFree) (hx : x.Computes f) (hf : f.IsPlain)
    (hsecluded : CellSpec.Secluded m specs) (hshort : ∀ s ∈ specs, s.HasShortTexts)
    (hrounds : 2 ≤ rounds) (h : InStep f m specs k k') :
    ∃ k₁ k₁', k.carryOut? x rounds .runUntilIdle = some k₁ ∧
      k'.carryOut? x rounds .runUntilIdle = some k₁' ∧ InStep f m specs k₁ k₁' := by
  have hleft := h.left.clearPending
  have hright := h.right.clearPending
  obtain ⟨htwin, hsheltered, hsheltered', hpending⟩ := runOnce_twin hash hx hf hsecluded hshort
    h.twin.clearPending hleft.toSheltered hright.toSheltered hleft.wellFormed k.pending k.forced
  have hround := hleft.toInOrder.round x k.pending k.forced {}
  have hround' := hright.toInOrder.round x k.pending k.forced {}
  -- each run is this round, unless there is nothing to do
  have hrun := h.left.toCalm.runUntilIdle?_eq hrounds hsheltered.toCalm hpending
  have hrun' : k'.runUntilIdle? x rounds = some (if k.pending.isEmpty then ({}, k') else
      k'.clearPending.runOnce x k.pending k.forced {}) := by
    have := h.right.toCalm.runUntilIdle?_eq (x := x) hrounds
    rw [h.twin.pending, h.twin.forced] at this
    exact this hsheltered'.toCalm (htwin.pending.trans hpending)
  show ∃ k₁ k₁', (k.runUntilIdle? x rounds).map (·.2) = some k₁ ∧
    (k'.runUntilIdle? x rounds).map (·.2) = some k₁' ∧ InStep f m specs k₁ k₁'
  rw [hrun, hrun']
  split
  · exact ⟨k, k', rfl, rfl, h⟩
  · exact ⟨_, _, rfl, rfl, htwin, ⟨hround, hsheltered⟩, ⟨hround', hsheltered'⟩⟩

/-- **Every operation keeps kernels in step**, and comes to an end in both. -/
theorem carryOut? (hash : HashFunction.CollisionFree) (hx : x.Computes f) (hf : f.IsPlain)
    (hsecluded : CellSpec.Secluded m specs) (hshort : ∀ s ∈ specs, s.HasShortTexts)
    (hrounds : 2 ≤ rounds) (h : InStep f m specs k k') (op : Operation)
    (hop : ∀ s ∈ op.specs, s ∈ specs) :
    ∃ k₁ k₁', k.carryOut? x rounds op = some k₁ ∧ k'.carryOut? x rounds op = some k₁' ∧
      InStep f m specs k₁ k₁' := by
  cases op with
  | register cells =>
    have hleft := registerCells_edits h.left.toCoherent h.left.waitFor hop
    have hright := registerCells_edits h.right.toCoherent h.right.waitFor hop
    exact ⟨_, _, rfl, rfl, h.twin.registerCells cells, h.left.edits hleft, h.right.edits hright⟩
  | delete cell =>
    exact ⟨_, _, rfl, rfl, h.twin.deleteCell cell, h.left.deleteCell cell, h.right.deleteCell cell⟩
  | run cells =>
    exact ⟨_, _, rfl, rfl, h.twin.runCells cells, h.left.runCells cells, h.right.runCells cells⟩
  | runUntilIdle => exact h.runUntilIdle hash hx hf hsecluded hshort hrounds

/-- So do operations one after another. -/
theorem carryOutAll? (hash : HashFunction.CollisionFree) (hx : x.Computes f) (hf : f.IsPlain)
    (hsecluded : CellSpec.Secluded m specs) (hshort : ∀ s ∈ specs, s.HasShortTexts)
    (hrounds : 2 ≤ rounds) (ops : List Operation) (hops : ∀ op ∈ ops, ∀ s ∈ op.specs, s ∈ specs)
    (h : InStep f m specs k k') :
    ∃ k₁ k₁', k.carryOutAll? x rounds ops = some k₁ ∧ k'.carryOutAll? x rounds ops = some k₁' ∧
      InStep f m specs k₁ k₁' := by
  induction ops generalizing k k' with
  | nil => exact ⟨k, k', rfl, rfl, h⟩
  | cons op ops ih =>
    obtain ⟨k₁, k₁', hfirst, hfirst', h₁⟩ := h.carryOut? hash hx hf hsecluded hshort hrounds op
      (hops op (List.mem_cons_self ..))
    obtain ⟨k₂, k₂', hrest, hrest', h₂⟩ := ih
      (fun op hop => hops op (List.mem_cons_of_mem _ hop)) h₁
    exact ⟨k₂, k₂', carryOutAll?_cons hfirst hrest, carryOutAll?_cons hfirst' hrest', h₂⟩

end InStep

omit [HashFunction] in
/-- New kernels that differ in whether they keep results. -/
theorem start_twin {config : Config} {disk : Disk} {clock : Nat} {own : σ} {cellCache : Bool}
    (h : Kernel.start config disk clock own = .ok k)
    (h' : Kernel.start { config with cellCache } disk clock own = .ok k') :
    Twin k k' ∧ k'.session = k.session := by
  unfold Kernel.start Config.validate at h h'
  by_cases hcapacity : config.messageCapacity = 0
  · rw [if_pos hcapacity] at h
    cases h
  · rw [if_neg hcapacity] at h h'
    obtain rfl := Except.ok.inj h
    obtain rfl := Except.ok.inj h'
    exact ⟨⟨rfl, rfl, rfl, rfl, rfl, rfl, rfl⟩, rfl⟩

/-- **With and without a cache a notebook shows the same.** -/
theorem carryOutAll?_transparent (hash : HashFunction.CollisionFree) (hx : x.Computes f)
    (hf : f.IsPlain) (hrounds : 2 ≤ rounds) {config : Config} {disk : Disk} {clock : Nat} {own : σ}
    {cached uncached : Kernel κ σ}
    (hstart : Kernel.start { config with cellCache := true } disk clock own = .ok cached)
    (hstart' : Kernel.start { config with cellCache := false } disk clock own = .ok uncached)
    (hempty : cached.session.cache.isEmpty = true) (ops : List Operation)
    (hsecluded : CellSpec.Secluded config.privateMarker (ops.flatMap Operation.specs))
    (hshort : ∀ s ∈ ops.flatMap Operation.specs, s.HasShortTexts) :
    ∃ k k', cached.carryOutAll? x rounds ops = some k ∧
      uncached.carryOutAll? x rounds ops = some k' ∧
      k.names = k'.names ∧ ∀ id, k.status? id = k'.status? id := by
  obtain ⟨htwin, hsession⟩ := start_twin hstart hstart'
  have hbegin : InStep f config.privateMarker (ops.flatMap Operation.specs) cached uncached :=
    ⟨htwin, (Tended.start hstart hempty :), (Tended.start hstart' (hsession ▸ hempty) :)⟩
  obtain ⟨k, k', hrun, hrun', h⟩ := hbegin.carryOutAll? hash hx hf hsecluded hshort hrounds ops
    fun op hop s hs => List.mem_flatMap.2 ⟨op, hop, hs⟩
  refine ⟨k, k', hrun, hrun', h.twin.names.symm, fun id => ?_⟩
  unfold status?
  rw [h.twin.parked, h.twin.graph]

end Kernel

/-- A cell that binds a private name. -/
def lender : CellSpec := ⟨⟨0⟩, "one", .ofList ["_a"], .empty⟩

/-- A cell that reads the private name. -/
def borrower (defs : List String) (code : String) : CellSpec :=
  ⟨⟨1⟩, code, .ofList defs, .ofList ["_a"]⟩

/-- Lists what is read, under the private name and under another one. -/
def lending : Computation := .collectUnder ["_a", "y"]

theorem lending_isPlain : lending.IsPlain := Computation.collectUnder_isPlain _

/-- The reading cell runs with one code, with another one next to the binding cell, and with the
first one again. -/
def thereAndBack (defs : List String) : List Operation :=
  [.register [borrower defs "p"], .runUntilIdle, .register [lender, borrower defs "q"],
    .runUntilIdle, .register [borrower defs "p"], .runUntilIdle]

set_option maxRecDepth 20000 in
/-- If the reading cell defines the name itself, then its first result is served again. -/
theorem Kernel.ownName_transparent :
    let _ := HashFunction.spelled
    CellSpec.Secluded "_" ((thereAndBack ["_a", "y"]).flatMap Operation.specs) ∧
    ∃ k k', (blank true).carryOutAll? (.computing lending) 2 (thereAndBack ["_a", "y"]) = some k ∧
      (blank false).carryOutAll? (.computing lending) 2 (thereAndBack ["_a", "y"]) = some k' ∧
      k.names = k'.names ∧ (∀ id, k.status? id = k'.status? id) ∧
      k.session.cache.stats.hits = 1 := by
  intro _
  have hsecluded : CellSpec.Secluded "_" ((thereAndBack ["_a", "y"]).flatMap Operation.specs) := by
    decide
  have hstart : ∀ cellCache, Kernel.start { ({} : Config) with cellCache } {} 0 () =
      .ok (blank cellCache) := start_blank
  obtain ⟨k, k', hrun, hrun', hnames, hstatus⟩ := carryOutAll?_transparent
    HashFunction.spelled_collisionFree (Executor.computing_computes lending) lending_isPlain
    (le_refl 2) (hstart true) (hstart false) rfl (thereAndBack ["_a", "y"]) hsecluded (by decide)
  have hend : ((blank true).carryOutAll? (.computing lending) 2 (thereAndBack ["_a", "y"])).map
      (·.session.cache.stats.hits) = some 1 := by cbv
  rw [hrun, Option.map_some, Option.some.injEq] at hend
  exact ⟨hsecluded, k, k', hrun, hrun', hnames, hstatus, hend⟩

set_option maxRecDepth 20000 in
/-- If it does not, then it is served what it computed before the name was bound. -/
theorem Kernel.borrowedName_servedStale :
    let _ := HashFunction.spelled
    HashFunction.CollisionFree ∧ (Executor.computing lending).Computes lending ∧ lending.IsPlain ∧
    ∃ k k', (blank true).carryOutAll? (.computing lending) 2 (thereAndBack ["y"]) = some k ∧
      (blank false).carryOutAll? (.computing lending) 2 (thereAndBack ["y"]) = some k' ∧
      k.value? "y" = some (.array []) ∧ k'.value? "y" = some (.array [.array []]) := by
  intro _
  have hshown : ∀ cellCache, ((blank cellCache).carryOutAll? (.computing lending) 2
      (thereAndBack ["y"])).map (·.value? "y") =
        some (some (.array (if cellCache then [] else [.array []]))) := by
    intro cellCache
    cases cellCache <;> cbv
  obtain ⟨k, hrun, hk⟩ := Option.map_eq_some_iff.1 (hshown true)
  obtain ⟨k', hrun', hk'⟩ := Option.map_eq_some_iff.1 (hshown false)
  exact ⟨HashFunction.spelled_collisionFree, Executor.computing_computes _,
    lending_isPlain, k, k', hrun, hrun', hk, hk'⟩

end Notebook
