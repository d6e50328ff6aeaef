/-
  Notebook.Proofs.Kernel.Informed — no write of a state is lost on a cell that reads it.

  A write is answered in two steps: it is queued, and later its readers become pending.  In between
  names may be bound anew, cells may come and go, and cells may fail.  `Informed` says where a cell
  stands that is idle and reads a state: it still has its turn, or a write by somebody else is still
  queued, or the cell ran after every such write.  Whatever happens keeps this; when nothing is
  pending and nothing is queued, only the last case is left.

  Main results:
    * `Informed.edits` / `Informed.apply` — edits and events keep cells informed,
    * `Informed.visit` / `Informed.round` — so does a cell of a round, and a whole round,
    * `informed_runRounds` — so do rounds, and nothing is pending or queued after the last one,
    * `runUntilIdle?_loses_no_write` — every idle cell ran after the last foreign write of every
      state that it reads.
-/
import Notebook.Digest.Sha256
import Notebook.Proofs.Kernel.Chronicle
import Notebook.Proofs.Kernel.Containment

namespace Notebook

open Relation

/-! ## §1. Answered writes. -/

/-- A write of the state by anyone but the cell. -/
def Happening.IsForeign (id : CellId) (s : StateId) : Happening → Prop
  | .wrote w => w.state = s ∧ w.origin ≠ .cell id
  | _ => False

/-- A write of the state by somebody else is among the queued ones, or the cell ran after every such
write. -/
def Answered (queue : List StateWrite) (h : List Happening) (id : CellId) (s : StateId) : Prop :=
  (∃ w ∈ queue, w.state = s ∧ w.origin ≠ .cell id) ∨ RanAfter (Happening.IsForeign id s) id h

namespace Answered

variable {queue : List StateWrite} {h l : List Happening} {id : CellId} {s : StateId}

theorem not_foreign_of_writes (hnone : ¬ ∃ w ∈ Happening.writes l, w.state = s ∧
    w.origin ≠ .cell id) : ∀ e ∈ l, ¬ e.IsForeign id s := by
  intro e he hforeign
  cases e with
  | wrote w => exact hnone ⟨w, Happening.mem_writes.2 he, hforeign⟩
  | _ => exact hforeign

/-- What happens next is answered when its writes are queued. -/
theorem append (ha : Answered queue h id s) :
    Answered (queue ++ Happening.writes l) (h ++ l) id s := by
  by_cases hnew : ∃ w ∈ Happening.writes l, w.state = s ∧ w.origin ≠ .cell id
  · obtain ⟨w, hw, hforeign⟩ := hnew
    exact .inl ⟨w, List.mem_append_right _ hw, hforeign⟩
  · rcases ha with ⟨w, hw, hforeign⟩ | ha
    · exact .inl ⟨w, List.mem_append_left _ hw, hforeign⟩
    · exact .inr (ha.append_of_none (not_foreign_of_writes hnew))

/-- A cell that runs leaves nothing unanswered but what is written while it runs. -/
theorem append_of_ran (hran : .ran id ∈ l) :
    Answered (queue ++ Happening.writes l) (h ++ l) id s := by
  by_cases hnew : ∃ w ∈ Happening.writes l, w.state = s ∧ w.origin ≠ .cell id
  · obtain ⟨w, hw, hforeign⟩ := hnew
    exact .inl ⟨w, List.mem_append_right _ hw, hforeign⟩
  · exact .inr (RanAfter.append_iff.2 ⟨.inr hran, .of_none (not_foreign_of_writes hnew)⟩)

end Answered

namespace Kernel

variable {κ σ : Type} {k k' k₀ : Kernel κ σ} {c : Cell} {id : CellId} {s : StateId}
  {h : List Happening} {exempt exempt' : CellId → Prop} {S : CellSpec → Prop}

/-! ## §2. Informed cells. -/

/-- After the chronicle `h`, an idle cell that reads a state is exempt, or what was written is
answered. -/
def Informed (exempt : CellId → Prop) (h : List Happening) (k : Kernel κ σ) : Prop :=
  ∀ id c s, k.graph.cell? id = some c → k.graph.status? id = some .idle → k.Reads c s →
    exempt id ∨ Answered k.session.states.writes h id s

/-- Who reads what depends on the names that a cell reads and defines, and on their bindings. -/
theorem Reads.congr {d : Cell} (hreads : k'.Reads c s) (hspec : d.spec = c.spec)
    (hprivate : ∀ name, k'.graph.isPrivate name = k.graph.isPrivate name)
    (hnames : ∀ name, k'.names.get? name = some (.state s) → k'.graph.isPrivate name = false →
      c.refs.has name = true → c.defs.has name = false → k.names.get? name = some (.state s)) :
    k.Reads d s := by
  obtain ⟨name, hbound, hpub, href, hdef⟩ := hreads
  obtain ⟨-, -, hdefs, hrefs⟩ := Cell.spec_eq_iff.1 hspec
  exact ⟨name, hnames name hbound hpub href hdef, (hprivate name).symm.trans hpub,
    by rw [hrefs]; exact href, by rw [hdefs]; exact hdef⟩

theorem Informed.mono (hi : Informed exempt h k) (himp : ∀ id, exempt id → exempt' id) :
    Informed exempt' h k :=
  fun id c s hc hidle hreads => (hi id c s hc hidle hreads).imp_left (himp id)

/-! ## §3. Edits and events. -/

/-- An edit adds no binding, makes no cell idle, and sees to it that new cells run. -/
theorem Informed.edit (hi : Informed (· ∈ k.pending) h k) (hk : k.Coherent)
    (hedit : Edit S k k') : Informed (· ∈ k'.pending) h k' := by
  intro id c s hc hidle hreads
  rcases hedit.idle hk.wellFormed hc hidle with hin | ⟨d, hd, hspec, hbefore, hpending⟩
  · exact .inl hin
  · have hprivate : ∀ name, k'.graph.isPrivate name = k.graph.isPrivate name := fun name => by
      unfold Graph.isPrivate
      rw [hedit.marker hk.wellFormed]
    have hreads := hreads.congr hspec hprivate fun name hbound _ _ _ => hedit.names_subset hbound
    rw [hedit.session.writes]
    exact (hi id d s hd hbefore hreads).imp_left hpending

theorem Informed.edits (hi : Informed (· ∈ k.pending) h k) (hk : k.Coherent)
    (hchain : ReflTransGen (Edit S) k k') : Informed (· ∈ k'.pending) h k' := by
  induction hchain with
  | refl => exact hi
  | tail hchain hstep ih => exact ih.edit (coherent_of_edits hk hchain) hstep

/-- When cells are only asked to run, it is enough that what happens is queued. -/
theorem Informed.asked {l : List Happening} (hi : Informed (· ∈ k.pending) h k) (ha : Asked k k')
    (hwrites : k'.session.states.writes = k.session.states.writes ++ Happening.writes l) :
    Informed (· ∈ k'.pending) (h ++ l) k' := by
  intro id c s hc hidle hreads
  rw [ha.graph] at hc hidle
  have hreads := hreads.congr (k := k) rfl (fun name => by rw [ha.graph])
    fun name hbound _ _ _ => by rwa [ha.names] at hbound
  rw [hwrites]
  exact (hi id c s hc hidle hreads).imp (ha.pending id) Answered.append

/-- When the queued writes are scheduled, the readers that they concern get their turn. -/
theorem Informed.scheduleWrites (hi : Informed (· ∈ k.pending) h k) (hg : k.graph.WellFormed) :
    Informed (· ∈ k.scheduleWrites.pending) h k.scheduleWrites := by
  have hasked := Asked.scheduleWrites hg
  intro id c s hc hidle hreads
  rw [hasked.graph] at hc hidle
  have hreads := hreads.congr (k := k) rfl (fun name => by rw [hasked.graph])
    fun name hbound _ _ _ => by rwa [hasked.names] at hbound
  rcases hi id c s hc hidle hreads with hpending | ⟨w, hw, rfl, hforeign⟩ | hran
  · exact .inl (hasked.pending id hpending)
  · refine .inl ((has_pending_scheduleWrites k).2 (.inl ?_))
    exact (mem_readersOfWrites_iff hg).2 ⟨w, hw, hforeign, c, hc, hreads⟩
  · exact .inr (.inr hran)

variable [HashFunction] {x : Executor κ σ} {forced roots : OrderedSet CellId} {r : Round κ σ}
  {done rest : List CellId}

theorem updateModel_eq (x : Executor κ σ) {model : ModelId} (patch : Json) {owner : CellId}
    {observers : List κ} (hfound : k.session.models.dispatch model = .ok (owner, observers)) :
    k.updateModel x model patch = .ok
      (({ k with session := (Session.runObservers x patch observers
        (k.session.enter owner .callback)).leave.2 } : Kernel κ σ).schedule
          ((k.readersWhere (Binding.isModel model)).remove owner).toList).scheduleWrites := by
  unfold updateModel Session.dispatch
  rw [hfound]
  rfl

/-- The observers of a model write, the readers of the model are queued, and then those of what was
written. -/
theorem Informed.updateModel (hi : Informed (· ∈ k.pending) h k) (hg : k.graph.WellFormed)
    (x : Executor κ σ) (model : ModelId) (patch : Json) :
    Informed (· ∈ (k.orUnchanged (k.updateModel x model patch)).2.pending)
      (h ++ (k.eventWrites x (.updateModel model patch)).map .wrote)
      (k.orUnchanged (k.updateModel x model patch)).2 := by
  cases hfound : k.session.models.dispatch model with
  | error e =>
    have hnone : k.eventWrites x (.updateModel model patch) = [] := by simp [eventWrites, hfound]
    have hsame : k.updateModel x model patch = .error e := by
      simp [Kernel.updateModel, Session.dispatch, hfound, Except.map]
    rw [hnone, hsame, List.map_nil, List.append_nil]
    exact hi
  | ok found =>
    obtain ⟨owner, observers⟩ := found
    have hwrites : k.eventWrites x (.updateModel model patch) =
        Session.writesOfObservers x patch observers (k.session.enter owner .callback) := by
      simp [eventWrites, hfound]
    have htold := hi.asked (l := (k.eventWrites x (.updateModel model patch)).map .wrote)
      (.told k (Session.runObservers x patch observers
        (k.session.enter owner .callback)).leave.2 k.published) (by
        rw [hwrites, Happening.writes_map_wrote]
        exact (congrArg StateStore.writes (Session.states_leave _)).trans
          (Session.writes_runObservers ..))
    rw [updateModel_eq x patch hfound, ← List.append_nil (h ++ _)]
    refine Informed.scheduleWrites (htold.asked (.schedule fun a ha => ?_)
      (List.append_nil _).symm) hg
    exact Asked.live_of_readersOf hg (OrderedSet.has_remove.1 (OrderedSet.mem_toList.1 ha)).2

theorem Informed.setState (hi : Informed (· ∈ k.pending) h k) (hg : k.graph.WellFormed)
    (x : Executor κ σ) (state : StateId) (value : Json) :
    Informed (· ∈ (k.orUnchanged (k.setState state value)).2.pending)
      (h ++ (k.eventWrites x (.setState state value)).map .wrote)
      (k.orUnchanged (k.setState state value)).2 := by
  have hwrites := Session.writes_writeState k.session state value
  have hevent : k.eventWrites x (.setState state value) =
      (k.session.write? (.writeState state value)).toList := rfl
  rw [← hevent] at hwrites
  cases hslot : k.session.states.slots.get? state with
  | none =>
    have hnone : k.eventWrites x (.setState state value) = [] := by
      simp [hevent, Session.write?, StateStore.get?, hslot]
    have hsame : (k.orUnchanged (k.setState state value)).2 = k := by
      simp [Kernel.setState, Session.writeState, StateStore.set, hslot, orUnchanged]
    rw [hnone, hsame, List.map_nil, List.append_nil]
    exact hi
  | some slot =>
    have hset : (k.orUnchanged (k.setState state value)).2 =
        ({ k with session := (k.session.writeState state value).2 } : Kernel κ σ).scheduleWrites := by
      simp [Kernel.setState, Session.writeState, StateStore.set, hslot, orUnchanged]
    rw [hset]
    refine Informed.scheduleWrites (hi.asked (.told k _ k.published) ?_) hg
    rw [Happening.writes_map_wrote]
    exact hwrites

/-- An event keeps cells informed, with the writes that it makes at once. -/
theorem Informed.apply (hi : Informed (· ∈ k.pending) h k) (hk : InOrder (fun _ => True) k)
    (x : Executor κ σ) (event : Event) : Informed (· ∈ (k.apply x event).2.pending)
      (h ++ (k.eventWrites x event).map .wrote) (k.apply x event).2 := by
  have hg := hk.wellFormed
  have hasked : ∀ k' : Kernel κ σ, Asked k k' →
      k'.session.states.writes = k.session.states.writes →
      Informed (· ∈ k'.pending) (h ++ []) k' := fun k' ha hwrites =>
    hi.asked ha (hwrites.trans (List.append_nil _).symm)
  cases event with
  | register specs =>
    have hedits : ReflTransGen (Edit fun _ => True) k (k.registerCells specs) :=
      registerCells_edits hk.toCoherent hk.waitFor fun _ _ => trivial
    exact (List.append_nil h).symm ▸ hi.edits hk.toCoherent hedits
  | delete cell =>
    show Informed (· ∈ (k.orUnchanged (k.deleteCell cell)).2.pending) (h ++ [])
      (k.orUnchanged (k.deleteCell cell)).2
    rw [List.append_nil]
    cases hdelete : k.deleteCell cell with
    | ok k' => exact hi.edits hk.toCoherent (deleteCell_edits hk.toCoherent hk.waitFor hdelete)
    | error e => exact hi
  | run cells =>
    refine hasked _ (.runCells k cells.toList) ?_
    exact congrArg (fun s : Session κ σ => s.states.writes) (runCells_session ..)
  | setElement element value =>
    refine hasked _ (apply_asked x hg (by simp) (by simp)) ?_
    show (k.orUnchanged (k.setElementValue element value)).2.session.states.writes = _
    unfold setElementValue
    cases k.session.elements.setValue element value <;> rfl
  | updateModel model patch => exact hi.updateModel hg x model patch
  | setState state value => exact hi.setState hg x state value
  | watchTriggered watch => exact hasked _ (apply_asked x hg (by simp) (by simp)) rfl
  | complete request start => exact hasked _ (apply_asked x hg (by simp) (by simp)) rfl

theorem Informed.applyAll (hi : Informed (· ∈ k.pending) h k) (hk : InOrder (fun _ => True) k)
    (x : Executor κ σ) (events : List Event) :
    Informed (· ∈ (k.applyAll x events).pending) (h ++ eventHappenings x k events)
      (k.applyAll x events) := by
  induction events generalizing k h with
  | nil => exact (List.append_nil h).symm ▸ hi
  | cons event rest ih =>
    rw [eventHappenings, ← List.append_assoc]
    exact ih (hi.apply hk x event) (hk.applyAll x [event])

/-- The kernel when the queued events and writes have been applied. -/
theorem Informed.ready (hi : Informed (· ∈ k.pending) h k) (hk : InOrder (fun _ => True) k)
    (x : Executor κ σ) : Informed (· ∈ (k.drain x).2.scheduleWrites.pending)
      (h ++ k.drainHappenings x) (k.drain x).2.scheduleWrites := by
  have hinbox : Asked k { k with session.inbox := [] } := .told k _ _
  have hbegin := hi.asked (l := []) hinbox (List.append_nil _).symm
  rw [List.append_nil] at hbegin
  exact (hbegin.applyAll (hk.asked hinbox) x (Event.coalesce k.session.inbox)).scheduleWrites
    ((hk.asked hinbox).applyAll x _).wellFormed

/-! ## §4. Rounds. -/

/-- Coming to a cell: either it runs, or it is not idle afterwards.  Other cells stand where they
stood.  What the cell binds is read only by cells that are still to come. -/
theorem Informed.visit (hi : Informed (· ∈ c.id :: rest) h r.kernel)
    (hround : Underway k₀ done (c.id :: rest) r)
    (hclosed : ∀ a b, a ∈ done ++ c.id :: rest → k₀.graph.Edge a b → b ∈ done ++ c.id :: rest)
    (hc : r.kernel.graph.cell? c.id = some c) (hrun : r.kernel.session.aborted = false) :
    Informed (· ∈ rest) (h ++ r.happenings x forced c.id) (r.visit x forced c.id).kernel := by
  obtain ⟨now, e, outputs, hsettled, hnow⟩ := Round.visit_settled x forced hc hrun
  intro id d s hd hidle hreads
  rw [Round.writes_visit x forced hc]
  rw [hsettled.status] at hidle
  split at hidle
  · rename_i heq
    subst heq
    obtain rfl := Option.some.inj hidle
    obtain ⟨-, hran⟩ : CellStatus.idle = .idle ∧ .ran c.id ∈ r.happenings x forced c.id := by
      simpa using hnow
    exact .inr (.append_of_ran hran)
  · rename_i hne
    obtain ⟨d', hd', hshape⟩ := Graph.cell?_congr hsettled.shape hd
    have hspec := Cell.spec_of_shape hshape
    by_cases hin : id ∈ rest
    · exact .inl hin
    -- the cell is not above `id`, which would have to be still to come
    have hno : ¬ k₀.graph.Edge c.id id := by
      intro hedge
      have hdone : id ∈ done := by
        have := hclosed c.id id (by simp) hedge
        simpa [hne, hin] using this
      by_cases hfailed : id ∈ r.failed
      · rcases (hround.broken id hfailed).status with hs | hs <;> simp [hs] at hidle
      · exact hround.ahead id hdone hfailed c.id (List.mem_cons_self ..) hedge
    have hreads' := hreads.congr hspec (fun name => Graph.isPrivate_congr hsettled.shape name)
      fun name hbound hpub href hdef => by
        rw [hsettled.names] at hbound
        split at hbound
        · rename_i hcdef
          refine absurd ((Graph.edge_congr hround.shape).1 ⟨c, d', hc, hd', ?_⟩) hno
          refine Graph.feeds_iff.2 ⟨?_, name, hcdef, ?_, ?_⟩
          · rw [Graph.cell?_id hd']
            exact fun heq => hne heq.symm
          · rw [(Cell.spec_eq_iff.1 hspec).2.2.2]
            exact href
          · rw [← Graph.isPrivate_congr hsettled.shape]
            exact hpub
        · exact hbound
    rcases hi id d' s hd' hidle hreads' with hexempt | hanswered
    · exact absurd hexempt (by simp [hne, hin])
    · exact .inr hanswered.append

/-- The whole way through the rest of a plan. -/
theorem Informed.visits (hround : Underway k₀ done rest r) (hg : k₀.graph.WellFormed)
    (hrest : k₀.AtRest) (hordered : rest.Pairwise fun a b => ¬ k₀.graph.Edge b a)
    (hclosed : ∀ a b, a ∈ done ++ rest → k₀.graph.Edge a b → b ∈ done ++ rest)
    (hi : Informed (· ∈ rest) h r.kernel)
    (hrun : (rest.foldl (Round.visit x forced) r).kernel.session.aborted = false) :
    Informed (fun _ => False) (h ++ r.chronicle x forced rest)
      (rest.foldl (Round.visit x forced) r).kernel := by
  induction rest generalizing done r h with
  | nil => exact (List.append_nil h).symm ▸ hi.mono fun _ hin => absurd hin List.not_mem_nil
  | cons id rest ih =>
    obtain ⟨c, rfl, hc⟩ := hround.next_live
    have hnow := goesOn_of_visits hrun
    obtain ⟨hfirst, hordered⟩ := List.pairwise_cons.1 hordered
    rw [Round.chronicle, ← List.append_assoc]
    exact ih (hround.visit hg hrest hfirst hc (visit_cases x forced hc hnow)) hordered
      (by simpa using hclosed) (hi.visit hround hclosed hc hnow) hrun

omit [HashFunction] in
/-- A cell that is idle when the first cell of a round is come to is outside of the run-set, or it is
still to come; outside of the run-set nothing has moved. -/
theorem Informed.readied (hi : Informed (· ∈ k.pending) h k) (hk : InOrder S k) :
    Informed (· ∈ (k.graph.plan k.pending).order) h
      (k.clearPending.readied k.pending {}).kernel := by
  have hg : k.clearPending.graph.WellFormed := hk.wellFormed
  have hbegin := underway_readied hg k.pending
  intro id d s hd hidle hreads
  refine (readied_idle hg hidle).imp_right fun ⟨hout, hidle⟩ => ?_
  obtain ⟨d', hd', hshape⟩ := Graph.cell?_congr hbegin.shape hd
  have hspec := Cell.spec_of_shape hshape
  have hreads' := hreads.congr (k := k) hspec
    (fun name => Graph.isPrivate_congr hbegin.shape name) fun name hbound hpub href hdef => by
      rw [← hbound]
      refine (hbegin.outside_names name fun c hc hdone => ?_).symm
      by_contra hcdef
      -- a blocked cell that defines the name would have the reader below it
      have hedge : k.graph.Edge c.id id := by
        refine ⟨c, d', hc, hd', Graph.feeds_iff.2
          ⟨?_, name, Bool.eq_true_of_not_eq_false hcdef, ?_, ?_⟩⟩
        · rintro heq
          rw [heq, Graph.cell?_id hd'] at hdone
          exact hout ((plan_perm hg k.pending).mem_iff.1 (List.mem_append_left _ hdone))
        · rw [(Cell.spec_eq_iff.1 hspec).2.2.2]
          exact href
        · exact (Graph.isPrivate_congr hbegin.shape name).symm.trans hpub
      refine hout (Graph.descendants_closed hk.wellFormed ?_ (.single hedge))
      exact (plan_perm hg k.pending).mem_iff.1 (List.mem_append_left _ hdone)
  rw [writes_readied]
  refine (hi id d' s hd' hidle hreads').resolve_left fun hpending => hout ?_
  exact Graph.mem_descendants_of_root hk.wellFormed hpending (Graph.contains_of_cell? hd')

omit [HashFunction] in
theorem Informed.silent {l : List Happening} (hi : Informed exempt h k)
    (hl : Happening.writes l = []) : Informed exempt (h ++ l) k := by
  intro id c s hc hidle hreads
  refine (hi id c s hc hidle hreads).imp_right fun ha => ?_
  have := ha.append (l := l)
  rwa [hl, List.append_nil] at this

/-- A round from all pending cells that is not stopped. -/
theorem Informed.round (hi : Informed (· ∈ k.pending) h k) (hk : InOrder S k)
    (hrun : (k.clearPending.runOnce x k.pending forced {}).2.session.aborted = false) :
    Informed (· ∈ (k.clearPending.runOnce x k.pending forced {}).2.pending)
      (h ++ k.clearPending.roundHappenings x k.pending forced)
      (k.clearPending.runOnce x k.pending forced {}).2 := by
  have hg : k.clearPending.graph.WellFormed := hk.wellFormed
  have hover : ((k.graph.plan k.pending).order.foldl (Round.visit x forced)
      (k.clearPending.readied k.pending {})).kernel.session.aborted = false := by
    rw [runOnce_eq, scheduleWrites_session] at hrun
    exact hrun
  have hperm := plan_perm hg k.pending
  have hvisits := (hi.readied hk).silent (l := (k.graph.descendants k.pending).map .scheduled)
    (Happening.writes_map_scheduled _) |>.visits (underway_readied hg k.pending) hg hk.clearPending.atRest
    (Graph.plan_order_pairwise hg) (fun a b ha hedge => by
      rw [hperm.mem_iff] at ha ⊢
      exact Graph.descendants_closed hg ha (.single hedge)) hover
  have hundisturbed := (visitedAll_status hg x k.pending forced).1
  -- no cell is exempt any more, so that it does not matter what is pending
  have hcollected := (hvisits.mono fun _ hno => hno.elim).asked (l := [])
    (collectGarbage_asked (k.clearPending.visitedAll x k.pending forced)) (List.append_nil _).symm
  rw [List.append_nil] at hcollected
  have hscheduled := (hcollected.scheduleWrites (hundisturbed.wellFormed hg)).silent
    (Happening.writes_map_scheduled ((k.clearPending.runOnce x k.pending forced {}).2.readersOfWrites
      (Happening.writes ((k.clearPending.readied k.pending {}).chronicle x forced
        (k.graph.plan k.pending).order))))
  unfold roundHappenings roundOf
  simp only [List.append_assoc] at hscheduled ⊢
  exact hscheduled

/-! ## §5. Runs and histories. -/

/-- When a run returns without having been stopped, every write is answered. -/
theorem informed_runRounds {rounds : Nat} {report report' : RunReport}
    (hi : Informed (· ∈ k.pending) h k) (hk : InOrder (fun _ => True) k)
    (hrun : runRounds x rounds k report = some (report', k')) (hend : k'.session.aborted = false) :
    InOrder (fun _ => True) k' ∧ k'.pending.isEmpty = true ∧ k'.session.states.writes = [] ∧
      Informed (· ∈ k'.pending) (h ++ roundsHappenings x rounds k) k' := by
  induction rounds generalizing k h report with
  | zero => cases hrun
  | succ rounds ih =>
    unfold runRounds at hrun
    dsimp only at hrun
    rw [roundsHappenings, ← List.append_assoc]
    -- events and writes come first, and then a round if anything is pending
    have hi₁ := hi.ready hk x
    have hk₁ := hk.ready x
    have hwrites : (k.drain x).2.scheduleWrites.session.states.writes = [] := by
      rw [scheduleWrites_session]
    generalize (k.drain x).2.scheduleWrites = k₁ at hrun hk₁ hi₁ hwrites ⊢
    split at hrun
    · rename_i hnone
      obtain ⟨-, rfl⟩ := Prod.mk.inj (Option.some.inj hrun)
      rw [if_pos hnone, List.append_nil]
      exact ⟨hk₁, hnone, hwrites, hi₁⟩
    · rename_i hsome
      rw [if_neg hsome]
      rw [runOnce_report] at hrun
      split at hrun
      · rename_i haborted
        obtain ⟨-, rfl⟩ := Prod.mk.inj (Option.some.inj hrun)
        exact absurd (haborted.symm.trans hend) (by simp)
      · rename_i haborted
        dsimp only at haborted ⊢
        rw [if_neg haborted, ← List.append_assoc]
        exact ih (hi₁.round hk₁ (Bool.eq_false_of_not_eq_true haborted))
          (hk₁.clearPending.round x k₁.pending k₁.forced {}) hrun

/-- The kernels that come about without a reset and without a run that is stopped, each with what
has happened so far.  Names are bound from outside only before there are cells.  The host may run
programs outside of all cells, which write states or send events through the handles that they
hold. -/
inductive Chronicled (x : Executor κ σ) : Kernel κ σ → List Happening → Prop
  | start {config : Config} {disk : Disk} {clock : Nat} {own : σ} {k : Kernel κ σ} :
    Kernel.start config disk clock own = .ok k → Chronicled x k []
  | init {k : Kernel κ σ} {h : List Happening} (initial : List (String × Binding)) :
    Chronicled x k h → (∀ id, k.graph.contains id = false) → Chronicled x (k.init initial) h
  | event {k : Kernel κ σ} {h : List Happening} (event : Event) :
    Chronicled x k h →
    Chronicled x (k.apply x event).2 (h ++ (k.eventWrites x event).map .wrote)
  | host {k : Kernel κ σ} {h : List Happening} {α : Type} (p : Program κ σ α) :
    Chronicled x k h → Chronicled x { k with session := (k.session.run p).2 }
      (h ++ (k.session.writesOf p).map .wrote)
  | untilIdle {k k' : Kernel κ σ} {h : List Happening} (rounds : Nat) (report : RunReport) :
    Chronicled x k h → k.runUntilIdle? x rounds = some (report, k') →
    k'.session.aborted = false → Chronicled x k' (h ++ k.runHappenings x rounds)

/-- Between two operations every cell is informed. -/
theorem Chronicled.informed (hk : Chronicled x k h) :
    InOrder (fun _ => True) k ∧ Informed (· ∈ k.pending) h k := by
  have hbare : ∀ {k : Kernel κ σ} {h : List Happening}, (∀ id, k.graph.contains id = false) →
      Informed (· ∈ k.pending) h k := by
    intro k h hbare id c s hc
    have := hbare id
    rw [Graph.contains_of_cell? hc] at this
    cases this
  induction hk with
  | start hstart =>
    refine ⟨.start hstart, hbare fun id => ?_⟩
    obtain ⟨-, cache, heq⟩ := start_eq hstart
    rw [heq]
    rfl
  | init initial _ hnone ih => exact ⟨ih.1.same rfl rfl, hbare hnone⟩
  | @event k h event _ ih =>
    refine ⟨?_, ih.2.apply ih.1 x event⟩
    rcases apply_cases x event ih.1.toCoherent ih.1.waitFor with hedits | hasked
    · exact ih.1.edits hedits
    · exact ih.1.asked hasked
  | @host k h α p _ ih =>
    refine ⟨ih.1.same rfl rfl, ih.2.asked (.told k _ k.published) ?_⟩
    rw [Happening.writes_map_wrote]
    exact Session.writes_run k.session p
  | @untilIdle k k' h rounds report _ hrun hend ih =>
    have hready : Asked k { k with session.aborted := false } := .told k _ _
    have hi := ih.2.asked (l := []) hready (List.append_nil _).symm
    rw [List.append_nil] at hi
    obtain ⟨horder, -, -, hinformed⟩ := informed_runRounds hi (ih.1.asked hready) hrun hend
    exact ⟨horder, hinformed⟩

/-- **No write of a state is lost.**  Whatever has happened before, when the kernel has run until
nothing is pending, every idle cell that reads a state under a public name of another cell ran, or
was served from the cache, after each write of the state that it did not make itself. -/
theorem runUntilIdle?_loses_no_write (hk : Chronicled x k h) {rounds : Nat} {report : RunReport}
    (hrun : k.runUntilIdle? x rounds = some (report, k')) (hend : k'.session.aborted = false)
    (hc : k'.graph.cell? c.id = some c) (hidle : k'.status? c.id = some .idle) {name : String}
    (href : c.refs.has name = true) (hdef : c.defs.has name = false)
    (hpub : k'.graph.isPrivate name = false) (hbound : k'.names.get? name = some (.state s)) :
    ∀ earlier write later, h ++ k.runHappenings x rounds = earlier ++ .wrote write :: later →
      write.state = s → write.origin ≠ .cell c.id → .ran c.id ∈ later := by
  obtain ⟨horder, hinformed⟩ := hk.informed
  have hready : Asked k { k with session.aborted := false } := .told k _ _
  have hi := hinformed.asked (l := []) hready (List.append_nil _).symm
  rw [List.append_nil] at hi
  obtain ⟨horder', hnone, hwrites, hinformed'⟩ :=
    informed_runRounds hi (horder.asked hready) hrun hend
  have hstatus : k'.graph.status? c.id = some .idle := by
    unfold status? at hidle
    split at hidle
    · cases hidle
    · exact hidle
  -- nothing is pending and nothing is queued, and so the writes were answered by a run
  rcases hinformed' c.id c s hc hstatus ⟨name, hbound, hpub, href, hdef⟩ with hin | ⟨w, hw, -⟩ | hran
  · exact absurd hin (by simp [Membership.mem, OrderedSet.has_of_isEmpty hnone])
  · rw [hwrites] at hw
    exact absurd hw List.not_mem_nil
  · intro earlier write later heq hstate horigin
    exact hran earlier (.wrote write) later heq ⟨hstate, horigin⟩

end Kernel

/-! ## §6. A reader and a writer. -/

/-- A cell that creates a state, one that reads it and one that writes it, to be run. -/
def Kernel.correspondence : Kernel Unit Unit :=
  ({ config := { cellCache := false }, session := { own := () } } : Kernel Unit Unit).registerCells
    [⟨⟨0⟩, "create", .ofList ["s"], .empty⟩, ⟨⟨1⟩, "y = s", .ofList ["y"], .ofList ["s"]⟩,
      ⟨⟨2⟩, "write", .empty, .ofList ["s"]⟩]

theorem Kernel.correspondence_chronicled :
    let _ := Sha256.hashFunction
    Chronicled Executor.scribe correspondence [] := by
  intro _
  have hstart : Kernel.start { cellCache := false } {} 0 () =
      .ok ({ config := { cellCache := false }, session := { own := () } } : Kernel Unit Unit) := rfl
  exact .event (.register _) (.start hstart)

/-- The reader runs before the writer and once more after it. -/
theorem Kernel.correspondence_loses_no_write :
    let _ := Sha256.hashFunction
    ∃ report k' c, correspondence.runUntilIdle? .scribe 4 = some (report, k') ∧
      k'.session.aborted = false ∧ k'.graph.cell? ⟨1⟩ = some c ∧ k'.status? ⟨1⟩ = some .idle ∧
      c.refs.has "s" = true ∧ c.defs.has "s" = false ∧ k'.graph.isPrivate "s" = false ∧
      k'.names.get? "s" = some (.state ⟨0⟩) ∧
      ∃ earlier write later,
        correspondence.runHappenings .scribe 4 = earlier ++ .wrote write :: later ∧
        .ran ⟨1⟩ ∈ earlier ∧ write.state = ⟨0⟩ ∧ write.origin = .cell ⟨2⟩ ∧ .ran ⟨1⟩ ∈ later := by
  intro _
  have hall : (correspondence.runUntilIdle? .scribe 4).map (fun p => (p.2.session.aborted,
      (p.2.graph.cell? ⟨1⟩).map fun c => (c.refs.has "s", c.defs.has "s"), p.2.status? ⟨1⟩,
      p.2.graph.isPrivate "s", p.2.names.get? "s")) =
      some (false, some (true, false), some .idle, false, some (.state ⟨0⟩)) := by cbv
  obtain ⟨⟨report, k'⟩, hrun, hfacts⟩ := Option.map_eq_some_iff.1 hall
  simp only [Prod.mk.injEq] at hfacts
  obtain ⟨hend, hcell, hidle, hpub, hbound⟩ := hfacts
  obtain ⟨c, hc, hnames⟩ := Option.map_eq_some_iff.1 hcell
  obtain ⟨href, hdef⟩ := Prod.mk.inj hnames
  have htold : correspondence.runHappenings .scribe 4 =
      [.scheduled ⟨0⟩, .scheduled ⟨1⟩, .scheduled ⟨2⟩, .ran ⟨0⟩, .ran ⟨1⟩, .ran ⟨2⟩] ++
        .wrote ⟨⟨0⟩, .bool true, .cell ⟨2⟩⟩ :: [.scheduled ⟨1⟩, .scheduled ⟨1⟩, .ran ⟨1⟩] := by cbv
  have hid := Graph.cell?_id hc
  refine ⟨report, k', c, hrun, hend, hc, hidle, href, hdef, hpub, hbound, _, _, _, htold,
    by simp, rfl, rfl, ?_⟩
  have hran := runUntilIdle?_loses_no_write correspondence_chronicled hrun hend (hid ▸ hc)
    (hid ▸ hidle) href hdef hpub hbound
  rw [List.nil_append, hid] at hran
  exact hran _ _ _ htold rfl (by simp)

end Notebook
