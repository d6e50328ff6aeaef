/-
  Notebook.Proofs.Kernel.Completed — a run resolves every cell of its run-set.

  A round first puts down the barred cells, and then comes to the others in an order in which no
  cell feeds an earlier one.  So what a cell reads is final when its turn comes, and a cell that
  was resolved stays so.  An executor that computes writes nothing and sends nothing; after one
  round nothing is left to do.

  Main results:
    * `Resolving.visit` — coming to a cell resolves it, and those before it stay resolved,
    * `InOrder.round_completes` — a round resolves its run-set and leaves the other cells alone,
    * `runUntilIdle?_completes` — a run ends, and it does just that.
-/
import Notebook.Proofs.Kernel.Resolved

namespace Notebook

open Relation

namespace Kernel

variable [HashFunction] {κ σ : Type} {k k' k₀ : Kernel κ σ} {c d : Cell} {f : Computation}
  {m : String} {x : Executor κ σ} {roots forced : OrderedSet CellId} {r r' : Round κ σ}
  {done rest : List CellId} {id : CellId} {S : CellSpec → Prop}

/-! ## §1. Plain kernels in a round. -/

namespace Plain

theorem isPublic (hk : Plain f m k) {name : String} (h : isPrivateName m name = false) :
    k.graph.isPrivate name = false := by
  unfold Graph.isPrivate
  rw [hk.marker]
  exact h

theorem public_defs (hk : Plain f m k) (hc : k.graph.cell? id = some c) :
    ∀ name, c.defs.has name = true → k.graph.isPrivate name = false :=
  fun name h => hk.isPublic ((hk.cells _ c hc).public_defs name h)

/-- A cell that settles without outputs leaves a plain kernel. -/
theorem down (hk : Plain f m k) {now : CellStatus} {e : Option CellError}
    (h : Settled k k' c now e .empty)
    (hsession : ∃ elements, k'.session = { k.session with elements }) : Plain f m k' := by
  obtain ⟨elements, hsession⟩ := hsession
  refine hk.moved h.toUndisturbed (h.plainNames hk.names fun _ _ h => by cases h) ?_
  rw [hsession]
  exact ⟨rfl, rfl, rfl, rfl, fun _ _ _ h => h⟩

/-- Coming to a cell leaves a plain kernel. -/
theorem visit (hash : HashFunction.CollisionFree) (hx : x.Computes f) (hf : f.IsPlain)
    (hk : Plain f m r.kernel) (hc : r.kernel.graph.cell? c.id = some c)
    (h : Visited x forced r c r') : Plain f m r'.kernel := by
  have hlive := (runLive_computes hash hx hf hk hc (forced.has c.id)).2
  cases h with
  | skipped _ hsettled hsession => exact hk.down hsettled hsession
  | executed _ hrun _ =>
    rw [hrun] at hlive
    exact hlive
  | cached _ hrun _ =>
    rw [hrun] at hlive
    exact hlive
  | failed _ hrun _ =>
    rw [hrun] at hlive
    exact hlive

/-- A round that comes to live cells is never asked to stop. -/
theorem visits_goOn (hash : HashFunction.CollisionFree) (hx : x.Computes f) (hf : f.IsPlain)
    (hk : Plain f m r.kernel) (forced : OrderedSet CellId) {ids : List CellId}
    (hlive : ∀ id ∈ ids, r.kernel.graph.contains id = true) :
    (ids.foldl (Round.visit x forced) r).kernel.session.aborted = false := by
  induction ids generalizing r with
  | nil => exact hk.goesOn
  | cons first rest ih =>
    obtain ⟨c, hc⟩ := Option.isSome_iff_exists.1 (hlive first (List.mem_cons_self ..))
    obtain rfl := Graph.cell?_id hc
    have hvisited := visit_cases x forced hc hk.goesOn
    obtain ⟨hundisturbed, -⟩ := visit_status x forced hc
    refine ih (hk.visit hash hx hf hc hvisited) fun id hid => ?_
    rw [Graph.contains_congr hundisturbed.shape]
    exact hlive id (List.mem_cons_of_mem _ hid)

end Plain

/-! ## §2. Blocked cells. -/

omit [HashFunction] in
/-- A live cell was live before, when the shape of the graph has stayed. -/
theorem live_before (h : k'.graph.shape = k.graph.shape) (hd : k'.graph.cell? d.id = some d) :
    ∃ a, a.id = d.id ∧ k.graph.cell? a.id = some a ∧ a.spec = d.spec := by
  obtain ⟨a, ha, hshape⟩ := Graph.cell?_congr h hd
  have hid := Graph.cell?_id ha
  exact ⟨a, hid, hid ▸ ha, Cell.spec_of_shape hshape⟩

/-- A cell that is down stays so when another one settles. -/
theorem Down.settled (hk : Plain f m k) (hg : k.graph.WellFormed)
    (hc : k.graph.cell? c.id = some c) {now' : CellStatus} {e : Option CellError}
    {outputs : Table String Binding} (hsettled : Settled k k' c now' e outputs)
    (hd : k'.graph.cell? d.id = some d) (hne : d.id ≠ c.id) {now : CellStatus}
    (h : Down k d now) : Down k' d now := by
  obtain ⟨a, hid, ha, hspec⟩ := live_before hsettled.shape hd
  have hdown : Down k a now := h.of_spec hspec.symm
  have hane : a.id ≠ c.id := hid ▸ hne
  have hkept : Down k' a now := by
    refine hdown.congr (fun name hdef => ?_) ((hsettled.status a.id).trans (if_neg hane))
    exact hsettled.names_other hg hc ha hane hdef (hk.public_defs ha name hdef)
  exact hkept.of_spec hspec

omit [HashFunction] in
/-- A cell that has settled is the cell that it was. -/
theorem Settled.spec_self {now : CellStatus} {e : Option CellError}
    {outputs : Table String Binding} (h : Settled k k' c now e outputs)
    (hc : k.graph.cell? c.id = some c) (hd : k'.graph.cell? d.id = some d) (hid : d.id = c.id) :
    c.spec = d.spec := by
  have hlive : k'.graph.cell? d.id = some { c with status := now } := by
    rw [hid]
    exact h.live hc
  rw [Option.some.inj (hd.symm.trans hlive)]
  rfl

/-- Blocked cells are down, each with the status that its reason asks for. -/
theorem blocks_down (blocked : List (CellId × BlockReason)) (hk : Plain f m r.kernel)
    (hg : r.kernel.graph.WellFormed) (hnodup : (blocked.map (·.1)).Nodup)
    (hlive : ∀ id ∈ blocked.map (·.1), r.kernel.graph.contains id = true)
    (hr' : r' = blocked.foldl (fun r b => r.block b.1 b.2) r) :
    Plain f m r'.kernel ∧ Undisturbed r.kernel r'.kernel ∧
      ∀ d, r'.kernel.graph.cell? d.id = some d → ∀ reason, (d.id, reason) ∈ blocked →
        Down r'.kernel d reason.status := by
  -- the last cell is blocked when the others are down already, and it is none of them
  induction blocked using List.reverseRecOn generalizing r' with
  | nil =>
    subst hr'
    exact ⟨hk, .refl _, fun _ _ _ h => absurd h List.not_mem_nil⟩
  | append_singleton blocked b ih =>
    rw [List.foldl_append] at hr'
    rw [List.map_append, List.nodup_append] at hnodup
    obtain ⟨hnodup, -, hnew⟩ := hnodup
    obtain ⟨hplain, hundisturbed, hdown⟩ := ih hnodup (fun id hid => hlive id (by
      rw [List.map_append]
      exact List.mem_append_left _ hid)) rfl
    have hb := hlive b.1 (by simp)
    rw [Graph.contains_congr hundisturbed.shape.symm] at hb
    obtain ⟨c, hc⟩ := Option.isSome_iff_exists.1 hb
    have hid := Graph.cell?_id hc
    rw [← hid] at hc
    obtain ⟨⟨e, hsettled⟩, hsession⟩ := block_settled hc b.2
    rw [hid] at hsettled hsession
    subst hr'
    refine ⟨hplain.down hsettled hsession, hundisturbed.trans hsettled.toUndisturbed,
      fun d hd reason hmem => ?_⟩
    rcases List.mem_append.1 hmem with hmem | hmem
    · -- one of the others
      have hne : d.id ≠ c.id := by
        intro heq
        exact hnew d.id (List.mem_map_of_mem hmem) b.1 (by simp) (heq.trans hid)
      obtain ⟨a, had, ha, hspec⟩ := live_before hsettled.shape hd
      have hbefore := (hdown a ha reason (had ▸ hmem)).of_spec hspec
      exact hbefore.settled hplain (hundisturbed.wellFormed hg) hc hsettled hd hne
    · -- the last one
      obtain rfl : (d.id, reason) = b := by simpa using hmem
      exact hsettled.down.of_spec (hsettled.spec_self hc hd hid.symm)

/-- A barred cell is down: in error on a cycle, and stale below one. -/
structure Halted (k : Kernel κ σ) (c : Cell) : Prop where
  cyclic : k.graph.OnCycle c.id → Down k c .error
  below : ¬ k.graph.OnCycle c.id → Down k c .stale

/-! ## §3. Rounds under way. -/

/-- The invariant of a round on a plain kernel: the barred cells are down, the others that are done
are resolved, and they are fed by none that is still to come. -/
structure Resolving (f : Computation) (m : String) (k₀ : Kernel κ σ) (roots : OrderedSet CellId)
    (done rest : List CellId) (r : Round κ σ) : Prop where
  plain : Plain f m r.kernel
  halted : ∀ d, r.kernel.graph.cell? d.id = some d → k₀.graph.Barred roots d.id →
    Halted r.kernel d
  resolved : ∀ d, r.kernel.graph.cell? d.id = some d → d.id ∈ done →
    ¬ k₀.graph.Barred roots d.id → Resolved f r.kernel d
  ahead : ∀ id ∈ done, ¬ k₀.graph.Barred roots id → ∀ a ∈ rest, ¬ k₀.graph.Edge a id
  ordered : ∀ id ∈ rest, id ∈ k₀.graph.descendants roots ∧ ¬ k₀.graph.Barred roots id

/-- The invariant holds once the barred cells are blocked and the others are queued. -/
theorem resolving_readied (hk : Plain f m k) (hg : k.graph.WellFormed)
    (roots : OrderedSet CellId) :
    Resolving f m k roots ((k.graph.plan roots).blocked.map (·.1)) (k.graph.plan roots).order
      (k.readied roots {}) := by
  have hlive : ∀ id ∈ (k.graph.plan roots).blocked.map (·.1), k.graph.contains id = true := by
    intro id hid
    have hbarred := (Graph.mem_plan_blocked hg).1 hid
    exact Graph.contains_of_mem_descendants (hbarred.mem_descendants hg)
  obtain ⟨hplain, hundisturbed, hdown⟩ := blocks_down (r := { kernel := k, report := {} })
    (k.graph.plan roots).blocked hk hg (Graph.plan_blocked_nodup hg) hlive rfl
  unfold readied
  dsimp only
  generalize (k.graph.plan roots).blocked.foldl (fun r b => r.block b.1 b.2)
    ({ kernel := k, report := {} } : Round κ σ) = r at hplain hundisturbed hdown ⊢
  -- queueing the others gives them a status, and does nothing else
  obtain ⟨published, heq⟩ := setStatusAll_eq r.kernel .queued (k.graph.plan roots).order
  have hshape : (r.kernel.graph.withStatus .queued (k.graph.plan roots).order).shape =
      r.kernel.graph.shape := Graph.shape_withStatus ..
  rw [heq]
  refine ⟨?_, fun d hd hbarred => ?_, fun d hd hdone hfree => ?_, fun id hdone hfree => ?_,
    fun id hid => (Graph.mem_plan_order hg).1 hid⟩
  · exact hplain.moved ⟨hshape, rfl, rfl, rfl, rfl, rfl⟩ hplain.names (.refl _)
  · obtain ⟨a, had, ha, hspec⟩ := live_before hshape hd
    obtain ⟨⟨id, reason⟩, hmem, hid⟩ := List.mem_map.1 ((Graph.mem_plan_blocked hg).2 hbarred)
    obtain rfl : id = d.id := hid
    have hreason := (Graph.plan_blocked_reason hg hmem).2
    have hnot : d.id ∉ (k.graph.plan roots).order := by
      intro hin
      exact ((Graph.mem_plan_order hg).1 hin).2 hbarred
    have hblocked := (hdown a ha reason (had ▸ hmem)).of_spec hspec
    have hcycle : (r.kernel.graph.withStatus .queued (k.graph.plan roots).order).OnCycle d.id ↔
        k.graph.OnCycle d.id := Graph.onCycle_congr (hshape.trans hundisturbed.shape)
    have hqueued : Down { r.kernel with
        graph := r.kernel.graph.withStatus .queued (k.graph.plan roots).order, published } d
          reason.status := by
      refine hblocked.congr (fun _ _ => rfl) ?_
      show (r.kernel.graph.withStatus .queued _).status? d.id = _
      rw [Graph.status?_withStatus, if_neg hnot]
    cases reason with
    | inCycle cycle => exact ⟨fun _ => hqueued, fun h => absurd (hcycle.2 hreason) h⟩
    | downstreamOf o => exact ⟨fun h => absurd (hcycle.1 h) hreason.1, fun _ => hqueued⟩
  · exact absurd ((Graph.mem_plan_blocked hg).1 hdone) hfree
  · exact absurd ((Graph.mem_plan_blocked hg).1 hdone) hfree

theorem Visited.settled (h : Visited x forced r c r') : ∃ now e outputs,
    Settled r.kernel r'.kernel c now e outputs := by
  cases h with
  | skipped _ hsettled _ => exact ⟨_, _, _, hsettled⟩
  | executed _ _ hsettled => exact ⟨_, _, _, hsettled⟩
  | cached _ _ hsettled => exact ⟨_, _, _, hsettled⟩
  | failed _ _ hsettled => exact ⟨_, _, _, hsettled⟩

/-- Coming to a cell that is on no cycle resolves it. -/
theorem Underway.resolves (hash : HashFunction.CollisionFree) (hx : x.Computes f)
    (hf : f.IsPlain) (h : Underway k₀ done (c.id :: rest) r) (hg : k₀.graph.WellFormed)
    (hrest : k₀.AtRest) (hfirst : ∀ a ∈ rest, ¬ k₀.graph.Edge a c.id) (hk : Plain f m r.kernel)
    (hc : r.kernel.graph.cell? c.id = some c) (hacyclic : ¬ k₀.graph.OnCycle c.id)
    (hvisited : Visited x forced r c r') : Resolved f r'.kernel c := by
  obtain ⟨now, e, outputs, hsettled⟩ := hvisited.settled
  have hcycle : ¬ r'.kernel.graph.OnCycle c.id := by
    rw [Graph.onCycle_congr (hsettled.shape.trans h.shape)]
    exact hacyclic
  have hparent : ∀ p, r'.kernel.graph.Edge p c.id → r.kernel.graph.Edge p c.id ∧
      r'.kernel.graph.status? p = r.kernel.graph.status? p := by
    intro p hedge
    exact ⟨(Graph.edge_congr hsettled.shape).1 hedge,
      (hsettled.status p).trans (if_neg hedge.ne)⟩
  -- whether executed, served or failed, a cell that is run has got what is computed for it
  have hran : ∀ {kernel : Kernel κ σ} {outcome : Outcome}, r.failedParent? c.id = none →
      r.kernel.runLive x c (forced.has c.id) = (outcome, kernel) → r'.kernel = kernel →
      Resolved f r'.kernel c := by
    intro kernel outcome hfree hrun heq
    have hgot := (runLive_computes hash hx hf hk hc (forced.has c.id)).1
    rw [hrun] at hgot
    have hcurrent : Current f r'.kernel c := by
      rw [heq]
      exact hgot.current
    refine ⟨fun h => absurd h hcycle, fun _ hnot => ?_, fun _ _ => hcurrent⟩
    obtain ⟨p, hedge, hstatus⟩ := hnot
    obtain ⟨hedge, hsame⟩ := hparent p hedge
    rw [hsame] at hstatus
    exact absurd (h.parents_idle hg hrest hfirst hfree hedge) hstatus
  cases hvisited with
  | skipped hfound hdown _ =>
    refine ⟨fun h => absurd h hcycle, fun _ _ => hdown.down, fun _ hidle => ?_⟩
    -- the parent that stands in the way is not idle
    have hmem := List.mem_of_find?_eq_some hfound
    have hstands := List.find?_some hfound
    have hedge := (Graph.mem_parents (h.wellFormed hg)).1 hmem
    have hp := hidle _ ((Graph.edge_congr hdown.shape).2 hedge)
    rw [(hparent _ ((Graph.edge_congr hdown.shape).2 hedge)).2] at hp
    rw [hp, Bool.or_false, List.contains_iff_mem] at hstands
    have hbroken := (h.broken _ hstands).status
    rw [hp] at hbroken
    simp at hbroken
  | executed hfree hrun _ => exact hran hfree hrun rfl
  | cached hfree hrun _ => exact hran hfree hrun rfl
  | failed hfree hrun _ => exact hran hfree hrun rfl

/-- Coming to the next cell preserves the invariant. -/
theorem Resolving.visit (hash : HashFunction.CollisionFree) (hx : x.Computes f) (hf : f.IsPlain)
    (hresolving : Resolving f m k₀ roots done (c.id :: rest) r)
    (h : Underway k₀ done (c.id :: rest) r) (hg : k₀.graph.WellFormed) (hrest : k₀.AtRest)
    (hfirst : ∀ a ∈ rest, ¬ k₀.graph.Edge a c.id) (hc : r.kernel.graph.cell? c.id = some c)
    (hvisited : Visited x forced r c r') : Resolving f m k₀ roots (done ++ [c.id]) rest r' := by
  have hk := hresolving.plain
  have hgr := h.wellFormed hg
  obtain ⟨now, e, outputs, hsettled⟩ := hvisited.settled
  obtain ⟨hmem, hfree⟩ := hresolving.ordered c.id (List.mem_cons_self ..)
  have hacyclic : ¬ k₀.graph.OnCycle c.id := fun h => hfree (Graph.barred_of_onCycle hmem h)
  refine ⟨hk.visit hash hx hf hc hvisited, fun d hd hbarred => ?_, fun d hd hdone hopen => ?_,
    fun id hid hopen a ha => ?_, fun id hid => hresolving.ordered id (List.mem_cons_of_mem _ hid)⟩
  · -- a barred cell is none that the round comes to
    have hne : d.id ≠ c.id := by
      intro heq
      exact hfree (heq ▸ hbarred)
    obtain ⟨a, had, ha, hspec⟩ := live_before hsettled.shape hd
    have hhalted := hresolving.halted a ha (had ▸ hbarred)
    have hcycle : r'.kernel.graph.OnCycle d.id ↔ r.kernel.graph.OnCycle d.id :=
      Graph.onCycle_congr hsettled.shape
    refine ⟨fun hon => ?_, fun hoff => ?_⟩
    · have hdown := (hhalted.cyclic (had ▸ hcycle.1 hon)).of_spec hspec
      exact hdown.settled hk hgr hc hsettled hd hne
    · have hdown := (hhalted.below (had ▸ fun h => hoff (hcycle.2 h))).of_spec hspec
      exact hdown.settled hk hgr hc hsettled hd hne
  · rcases List.mem_append.1 hdone with hdone | hdone
    · -- a cell that was done before is not fed by this one
      have hne : d.id ≠ c.id := by
        intro heq
        exact List.disjoint_of_nodup_append h.nodup hdone (heq ▸ List.mem_cons_self ..)
      have hno : ¬ r.kernel.graph.Edge c.id d.id := by
        rw [Graph.edge_congr h.shape]
        exact hresolving.ahead d.id hdone hopen c.id (List.mem_cons_self ..)
      obtain ⟨a, had, ha, hspec⟩ := live_before hsettled.shape hd
      have hresolved := hresolving.resolved a ha (had ▸ hdone) (had ▸ hopen)
      have hview := hsettled.sameView hgr hc ha (had ▸ hne) (hk.public_defs ha)
        (fun _ href => hk.public_refs ha href) (had ▸ hno)
      refine (hresolved.congr hview (Graph.onCycle_congr hsettled.shape)
        (fun p => Graph.edge_congr hsettled.shape) ?_ fun p hedge => ?_).of_spec hspec
      · exact (hsettled.status a.id).trans (if_neg (had ▸ hne))
      · have hp : p ≠ c.id := by
          rintro rfl
          exact hno (had ▸ hedge)
        exact (hsettled.status p).trans (if_neg hp)
    · -- this cell
      have hid := List.mem_singleton.1 hdone
      refine (h.resolves hash hx hf hg hrest hfirst hk hc hacyclic hvisited).of_spec ?_
      exact hsettled.spec_self hc hd hid
  · rcases List.mem_append.1 hid with hid | hid
    · exact hresolving.ahead id hid hopen a (List.mem_cons_of_mem _ ha)
    · rw [List.mem_singleton.1 hid]
      exact hfirst a ha

/-! ## §4. Completed rounds and runs. -/

/-- What a round from `roots` makes of a plain kernel: the cells of its run-set are resolved, and
the others stand as they stood. -/
structure Completed (f : Computation) (m : String) (roots : OrderedSet CellId)
    (k k' : Kernel κ σ) : Prop where
  shape : k'.graph.shape = k.graph.shape
  config : k'.config = k.config
  parked : k'.parked = k.parked
  plain : Plain f m k'
  resolved : ∀ c, k'.graph.cell? c.id = some c → c.id ∈ k.graph.descendants roots →
    Resolved f k' c
  outside_status : ∀ id, id ∉ k.graph.descendants roots →
    k'.graph.status? id = k.graph.status? id
  outside_names : ∀ name, (∀ c, k.graph.cell? c.id = some c →
    c.id ∈ k.graph.descendants roots → c.defs.has name = false) →
      k'.names.get? name = k.names.get? name

omit [HashFunction] in
theorem scheduleWrites_of_none (h : k.session.states.writes = []) : k.scheduleWrites = k := by
  have hstates : { k.session.states with writes := [] } = k.session.states := by
    rw [← h]
  unfold scheduleWrites
  rw [h, List.foldl_nil, hstates]

theorem drain_of_none (x : Executor κ σ) (h : k.session.inbox = []) : (k.drain x).2 = k := by
  have hsession : { k.session with inbox := [] } = k.session := by
    rw [← h]
  unfold drain
  rw [h]
  show { k with session := { k.session with inbox := [] } } = k
  rw [hsession]

omit [HashFunction] in
/-- A cell that is down does not let the cells below it run. -/
theorem Halted.not_idle (h : Halted k c) : k.graph.status? c.id ≠ some .idle := by
  intro hidle
  by_cases hcycle : k.graph.OnCycle c.id
  · have := (h.cyclic hcycle).status
    rw [hidle] at this
    cases this
  · have := (h.below hcycle).status
    rw [hidle] at this
    cases this

/-- When a round is over, every cell of its run-set is resolved. -/
theorem Resolving.over (h : Resolving f m k₀ roots done [] r)
    (hshape : r.kernel.graph.shape = k₀.graph.shape)
    (hdone : ∀ id, id ∈ k₀.graph.descendants roots → id ∈ done)
    (hc : r.kernel.graph.cell? c.id = some c) (hmem : c.id ∈ k₀.graph.descendants roots) :
    Resolved f r.kernel c := by
  by_cases hbarred : k₀.graph.Barred roots c.id
  · have hhalted := h.halted c hc hbarred
    refine ⟨hhalted.cyclic, fun hoff _ => hhalted.below hoff, fun hoff hidle => ?_⟩
    -- below a cycle some parent is barred as well, and so not idle
    obtain ⟨p, hedge, hp⟩ := hbarred.exists_parent fun hon =>
      hoff ((Graph.onCycle_congr hshape).2 hon)
    have hedge := (Graph.edge_congr hshape).2 hedge
    obtain ⟨a, ha⟩ := Option.isSome_iff_exists.1 hedge.contains_left
    have hid := Graph.cell?_id ha
    subst hid
    exact absurd (hidle a.id hedge) (h.halted a ha hp).not_idle
  · exact h.resolved c hc (hdone c.id hmem) hbarred

/-- A round resolves its run-set, and leaves the other cells alone. -/
theorem InOrder.round_completes (hash : HashFunction.CollisionFree) (hx : x.Computes f)
    (hf : f.IsPlain) (hin : InOrder S k) (hk : Plain f m k) (roots forced : OrderedSet CellId)
    (report : RunReport) : Completed f m roots k (k.runOnce x roots forced report).2 ∧
      (k.runOnce x roots forced report).2.pending = k.pending := by
  have hg := hin.wellFormed
  have hbegin := underway_readied hg roots
  have hresolving := resolving_readied hk hg roots
  -- no cell asks to stop, so that the round comes to all of its plan
  have hrun := hresolving.plain.visits_goOn hash hx hf forced fun _ => hbegin.live_now
  obtain ⟨hover, hresolved⟩ := hbegin.visits x forced (P := Resolving f m k roots) hg hin.atRest
    (fun done rest r r' c hunder hfirst hresolving hc hvisited =>
      hresolving.visit hash hx hf hunder hg hin.atRest hfirst hc hvisited)
    (Graph.plan_order_pairwise hg) hresolving hrun
  rw [runOnce_report, runOnce_eq]
  dsimp only
  generalize (k.graph.plan roots).order.foldl (Round.visit x forced) (k.readied roots {}) = r
    at hover hresolved ⊢
  rw [scheduleWrites_of_none (k := r.kernel.collectGarbage) hresolved.plain.writes]
  have hperm := plan_perm hg roots
  have hnone : ∀ id, id ∉ k.graph.descendants roots →
      id ∉ (k.graph.plan roots).blocked.map (·.1) ++ (k.graph.plan roots).order := by
    intro id hid hin
    exact hid (hperm.mem_iff.1 hin)
  refine ⟨?_, hover.pending⟩
  refine
    { shape := hover.shape
      config := hover.config
      parked := hover.parked
      plain := hresolved.plain.moved ⟨rfl, rfl, rfl, rfl, rfl, rfl⟩ hresolved.plain.names
        ⟨rfl, rfl, rfl, rfl, fun _ _ _ h => h⟩
      resolved := fun c hc hmem => ?_
      outside_status := fun id hid => hover.outside_status id (hnone id hid) List.not_mem_nil
      outside_names := fun name hname => ?_ }
  · have := hresolved.over hover.shape (fun id hid => hperm.mem_iff.2 hid) hc hmem
    exact this.congr ⟨fun _ _ => rfl, fun _ _ _ => rfl, fun _ _ => rfl⟩ Iff.rfl (fun _ => Iff.rfl)
      rfl fun _ _ => rfl
  · refine hover.outside_names name fun c hc hdone => hname c hc ?_
    exact hperm.mem_iff.1 hdone

/-- With nothing to begin from there is nothing to do. -/
theorem Completed.of_none (hg : k.graph.WellFormed) (hk : Plain f m k)
    (hnone : ∀ id, roots.has id = false) : Completed f m roots k k where
  shape := rfl
  config := rfl
  parked := rfl
  plain := hk
  resolved := fun _ _ hmem => absurd hmem (Graph.not_mem_descendants_of_none hg hnone)
  outside_status := fun _ _ => rfl
  outside_names := fun _ _ => rfl

/-- A calm kernel has no event to apply and no write to schedule. -/
theorem Calm.ready (hk : Calm f S k) (x : Executor κ σ) : (k.drain x).2.scheduleWrites = k := by
  rw [drain_of_none x hk.inbox, scheduleWrites_of_none hk.writes]

/-- A run of a calm kernel is one round, when the round leaves it calm with nothing pending. -/
theorem Calm.runUntilIdle?_eq (hk : Calm f S k) {rounds : Nat} (hrounds : 2 ≤ rounds)
    (hafter : Calm f S (k.clearPending.runOnce x k.pending k.forced {}).2)
    (hpending : (k.clearPending.runOnce x k.pending k.forced {}).2.pending = .empty) :
    k.runUntilIdle? x rounds = some (if k.pending.isEmpty then ({}, k) else
      k.clearPending.runOnce x k.pending k.forced {}) := by
  obtain ⟨n, rfl⟩ := Nat.exists_eq_add_of_le' hrounds
  have hsession : { k.session with aborted := false } = k.session := by
    rw [← hk.goesOn]
  unfold runUntilIdle?
  rw [hsession]
  unfold runRounds
  dsimp only
  rw [hk.ready x]
  by_cases hnone : k.pending.isEmpty = true
  · rw [if_pos hnone, if_pos hnone]
  · rw [if_neg hnone, if_neg hnone]
    generalize k.clearPending.runOnce x k.pending k.forced {} = round at hafter hpending ⊢
    obtain ⟨report, k'⟩ := round
    dsimp only at hafter hpending ⊢
    rw [hafter.goesOn, if_neg Bool.false_ne_true]
    -- the next round finds nothing to do
    unfold runRounds
    dsimp only
    rw [hafter.ready x, hpending]
    rfl

/-- A run of a plain kernel ends after a round, with nothing pending. -/
theorem runUntilIdle?_completes (hash : HashFunction.CollisionFree) (hx : x.Computes f)
    (hf : f.IsPlain) (hin : InOrder S k) (hk : Plain f m k) {rounds : Nat} (hrounds : 2 ≤ rounds) :
    ∃ report k', k.runUntilIdle? x rounds = some (report, k') ∧ InOrder S k' ∧
      Completed f m k.pending k k' ∧ ∀ id, k'.pending.has id = false := by
  have hcleared : Plain f m k.clearPending :=
    ⟨hk.toCalm.after hk.cells hk.names (.refl _), hk.marker⟩
  have hclearedIn : InOrder S k.clearPending := hin.clearPending
  obtain ⟨hcompleted, hpending⟩ := hclearedIn.round_completes hash hx hf hcleared k.pending
    k.forced {}
  have hinAfter := hclearedIn.round x k.pending k.forced {}
  rw [hk.toCalm.runUntilIdle?_eq hrounds hcompleted.plain.toCalm hpending]
  by_cases hnone : k.pending.isEmpty = true
  · rw [if_pos hnone]
    have hhas := OrderedSet.has_of_isEmpty hnone
    exact ⟨_, _, rfl, hin, .of_none hin.wellFormed hk hhas, hhas⟩
  · rw [if_neg hnone]
    generalize k.clearPending.runOnce x k.pending k.forced {} = round
      at hcompleted hpending hinAfter ⊢
    obtain ⟨report, k'⟩ := round
    refine ⟨report, k', rfl, hinAfter, ?_, fun id => ?_⟩
    · exact
        { shape := hcompleted.shape
          config := hcompleted.config
          parked := hcompleted.parked
          plain := hcompleted.plain
          resolved := hcompleted.resolved
          outside_status := hcompleted.outside_status
          outside_names := hcompleted.outside_names }
    · show k'.pending.has id = false
      rw [show k'.pending = .empty from hpending]
      rfl

/-- A cell outside of the run-set sees nothing of the run. -/
theorem Completed.sameView (h : Completed f m roots k k') (hg : k.graph.WellFormed)
    (hk : Plain f m k) (hd : k.graph.cell? d.id = some d)
    (hout : d.id ∉ k.graph.descendants roots) : SameView k k' d := by
  refine .of_unread hg hd (hk.public_defs hd) (Graph.isPrivate_congr h.shape)
    fun name hchanged => ?_
  -- some cell of the run-set defines the name, and none of them feeds this one
  have hsome : ∃ c, k.graph.cell? c.id = some c ∧ c.id ∈ k.graph.descendants roots ∧
      c.defs.has name = true := by
    by_contra hnone
    refine hchanged (h.outside_names name fun c hc hmem => ?_)
    by_contra hdef
    exact hnone ⟨c, hc, hmem, Bool.eq_true_of_not_eq_false hdef⟩
  obtain ⟨c, hc, hmem, hdef⟩ := hsome
  have hne : c.id ≠ d.id := by
    intro heq
    exact hout (heq ▸ hmem)
  have hno : ¬ k.graph.Edge c.id d.id := by
    intro hedge
    exact hout (Graph.descendants_closed hg hmem (.single hedge))
  exact ⟨c, hc, hne, hdef, unread_of_not_edge hc hd hne hno (hk.public_refs hd) hdef⟩

end Kernel

end Notebook
