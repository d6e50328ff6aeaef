/-
  Notebook.Proofs.Kernel.Stopped — what a run that is stopped leaves behind.

  A run can be asked to stop at any moment, by a program that it runs or from outside.  The cells
  that the round does not come to are marked as stale.  The readers of what was written in that
  round are scheduled like those of any other round, but then the pending cells are dropped, and
  nothing marks the readers: an idle one keeps outputs that the write has overtaken.

  Main results:
    * `Accounted.visits` — a cell that a round comes to runs, or it is not idle, stopped or not,
    * `Call.of_run` — every run is a call that may be stopped, told in full,
    * `Call.lost_iff` — the cells that a call loses are just the idle readers of what was written in
      the round that was stopped.
-/
import Notebook.Digest.Sha256
import Notebook.Proofs.Kernel.Chronicle
import Notebook.Proofs.Kernel.Containment

namespace Notebook

open Relation

namespace Kernel

variable {κ σ : Type} {k k' : Kernel κ σ} {id : CellId} {h : List Happening}
  {exempt exempt' : CellId → Prop} {S : CellSpec → Prop}

/-! ## §1. Cells that are accounted for. -/

/-- Every idle cell ran whenever it had been scheduled, but for those that are exempt. -/
def Accounted (exempt : CellId → Prop) (h : List Happening) (k : Kernel κ σ) : Prop :=
  ∀ id, k.graph.status? id = some .idle → exempt id ∨ RanAfter (· = .scheduled id) id h

theorem Accounted.mono (ha : Accounted exempt h k) (himp : ∀ id, exempt id → exempt' id) :
    Accounted exempt' h k :=
  fun id hidle => (ha id hidle).imp_left (himp id)

/-- Scheduling cells leaves just these to be accounted for. -/
theorem Accounted.scheduled (ha : Accounted exempt h k) (ids : List CellId) :
    Accounted (fun id => exempt id ∨ id ∈ ids) (h ++ ids.map .scheduled) k := by
  intro id hidle
  by_cases hin : id ∈ ids
  · exact .inl (.inr hin)
  · refine (ha id hidle).imp .inl fun hran => hran.append_of_none fun e he heq => ?_
    subst heq
    simp [hin] at he

theorem Accounted.edits (ha : Accounted (· ∈ k.pending) h k) (hk : k.Coherent)
    (hchain : ReflTransGen (Edit S) k k') : Accounted (· ∈ k'.pending) h k' := by
  induction hchain with
  | refl => exact ha
  | tail hchain hstep ih =>
    intro id hidle
    obtain ⟨d, hd⟩ := Option.isSome_iff_exists.1 (Graph.contains_of_status? hidle)
    rcases hstep.idle (coherent_of_edits hk hchain).wellFormed hd hidle with
      hin | ⟨e, he, -, hbefore, hpending⟩
    · exact .inl hin
    · exact (ih id hbefore).imp_left hpending

theorem Accounted.asked (ha : Accounted (· ∈ k.pending) h k) (hasked : Asked k k') :
    Accounted (· ∈ k'.pending) h k' := by
  intro id hidle
  rw [hasked.graph] at hidle
  exact (ha id hidle).imp_left (hasked.pending id)

/-- Writes alone schedule nothing. -/
theorem Accounted.wrote (ha : Accounted exempt h k) (ws : List StateWrite) :
    Accounted exempt (h ++ ws.map .wrote) k := by
  intro id hidle
  refine (ha id hidle).imp_right fun hran => hran.append_of_none fun e he heq => ?_
  subst heq
  simp at he

variable [HashFunction] {x : Executor κ σ} {forced roots : OrderedSet CellId} {r : Round κ σ}

theorem Accounted.applyAll (ha : Accounted (· ∈ k.pending) h k) (hk : InOrder (fun _ => True) k)
    (x : Executor κ σ) (events : List Event) :
    Accounted (· ∈ (k.applyAll x events).pending) (h ++ eventHappenings x k events)
      (k.applyAll x events) := by
  induction events generalizing k h with
  | nil => exact (List.append_nil h).symm ▸ ha
  | cons event rest ih =>
    rw [eventHappenings, ← List.append_assoc]
    rcases apply_cases x event hk.toCoherent hk.waitFor with hedits | hasked
    · exact ih ((ha.edits hk.toCoherent hedits).wrote _) (hk.edits hedits)
    · exact ih ((ha.asked hasked).wrote _) (hk.asked hasked)

/-- The kernel when the queued events and writes have been applied. -/
theorem Accounted.ready (ha : Accounted (· ∈ k.pending) h k) (hk : InOrder (fun _ => True) k)
    (x : Executor κ σ) : Accounted (· ∈ (k.drain x).2.scheduleWrites.pending)
      (h ++ k.drainHappenings x) (k.drain x).2.scheduleWrites := by
  have hinbox : Asked k { k with session.inbox := [] } := .told k _ _
  have hdrained := (hk.asked hinbox).applyAll x (Event.coalesce k.session.inbox)
  exact ((ha.asked hinbox).applyAll (hk.asked hinbox) x _).asked (.scheduleWrites hdrained.wellFormed)

/-! ## §2. Rounds, stopped or not. -/

/-- Coming to a cell schedules none. -/
theorem Round.not_scheduled {a : CellId} (x : Executor κ σ) (forced : OrderedSet CellId)
    (r : Round κ σ) (id : CellId) : .scheduled a ∉ r.happenings x forced id := by
  unfold happenings
  split
  · exact List.not_mem_nil
  · split
    · exact List.not_mem_nil
    · intro hin
      rcases List.mem_append.1 hin with hin | hin
      · split at hin <;> simp at hin
      · simp at hin

/-- A cell that a round comes to runs, or it is not idle afterwards. -/
theorem Accounted.visits (x : Executor κ σ) (forced : OrderedSet CellId) (ids : List CellId)
    (hlive : ∀ id ∈ ids, r.kernel.graph.contains id = true)
    (ha : Accounted (fun id => id ∈ ids ∨ exempt id) h r.kernel) :
    Accounted exempt (h ++ r.chronicle x forced ids)
      (ids.foldl (Round.visit x forced) r).kernel := by
  induction ids generalizing r h with
  | nil =>
    exact (List.append_nil h).symm ▸ ha.mono fun id hid => hid.resolve_left List.not_mem_nil
  | cons first rest ih =>
    obtain ⟨c, hc⟩ := Option.isSome_iff_exists.1 (hlive first (List.mem_cons_self ..))
    obtain rfl := Graph.cell?_id hc
    have hshape := (visit_status x forced hc).1.shape
    obtain ⟨now, hnow, hstatus⟩ := Round.visit_fate x forced hc
    have hquiet : ∀ a, ∀ e ∈ r.happenings x forced c.id, ¬ e = .scheduled a := by
      rintro a e he rfl
      exact Round.not_scheduled x forced r c.id he
    rw [Round.chronicle, ← List.append_assoc]
    refine ih (fun id hid => ?_) fun id hidle => ?_
    · rw [Graph.contains_congr hshape]
      exact hlive id (List.mem_cons_of_mem _ hid)
    · rw [hstatus] at hidle
      split at hidle
      -- the cell itself is idle only because it ran; any other cell stands where it stood
      · rename_i heq
        subst heq
        obtain rfl := Option.some.inj hidle
        obtain ⟨-, hran⟩ : CellStatus.idle = .idle ∧ .ran c.id ∈ r.happenings x forced c.id := by
          simpa using hnow
        exact .inr (RanAfter.append_iff.2 ⟨.inr hran, .of_none (hquiet _)⟩)
      · rename_i hne
        refine (ha id hidle).imp (fun hin => ?_) fun hran => hran.append_of_none (hquiet id)
        exact hin.imp_left fun hin => (List.mem_cons.1 hin).resolve_left hne

omit [HashFunction] in
/-- The cells of the run-set are scheduled when the round begins; of these only the cells that are
still to come can be idle when the first one is come to. -/
theorem Accounted.readied (ha : Accounted (· ∈ k.pending) h k) (hg : k.graph.WellFormed) :
    Accounted (· ∈ (k.graph.plan k.pending).order)
      (h ++ (k.graph.descendants k.pending).map .scheduled)
      (k.clearPending.readied k.pending {}).kernel := by
  intro id hidle
  have hg' : k.clearPending.graph.WellFormed := hg
  refine (readied_idle hg' hidle).imp_right fun ⟨hout, hidle⟩ => ?_
  -- pending or scheduled, it would be in the run-set
  refine (ha.scheduled (k.graph.descendants k.pending) id hidle).resolve_left fun hin => hout ?_
  exact hin.elim (fun hpending => Graph.mem_descendants_of_root hg hpending
    (Graph.contains_of_status? hidle)) fun hin => hin

omit [HashFunction] in
/-- When a round is over, the readers of what was written are scheduled. -/
theorem Accounted.ended {told : List Happening}
    (ha : Accounted (fun _ => False) (h ++ (k.graph.descendants roots).map .scheduled ++ told)
      r.kernel) (hg : r.kernel.graph.WellFormed) :
    Accounted (· ∈ (r.kernel.collectGarbage.scheduleWrites).readersOfWrites
        (Happening.writes told))
      (h ++ k.roundOf (r.kernel.collectGarbage.scheduleWrites) roots told)
      (r.kernel.collectGarbage.scheduleWrites) := by
  intro id hidle
  have hgraph : r.kernel.collectGarbage.scheduleWrites.graph = r.kernel.graph :=
    (Asked.scheduleWrites (k := r.kernel.collectGarbage) hg).graph
  rw [hgraph] at hidle
  have hended := ha.scheduled ((r.kernel.collectGarbage.scheduleWrites).readersOfWrites
    (Happening.writes told)) id hidle
  unfold roundOf
  simpa only [false_or, List.append_assoc] using hended

/-! ## §3. Rounds that are stopped from outside. -/

namespace Round

omit [HashFunction] in
/-- The run is asked to stop. -/
def stop (r : Round κ σ) : Round κ σ :=
  { r with kernel := { r.kernel with session.aborted := true } }

/-- Comes to the given cells; after the first `n` of them the run is asked to stop. -/
def visitsStopped (x : Executor κ σ) (forced : OrderedSet CellId) (n : Nat) (r : Round κ σ)
    (ids : List CellId) : Round κ σ :=
  (ids.drop n).foldl (visit x forced) ((ids.take n).foldl (visit x forced) r).stop

/-- What happens then. -/
def chronicleStopped (x : Executor κ σ) (forced : OrderedSet CellId) (n : Nat) (r : Round κ σ)
    (ids : List CellId) : List Happening :=
  r.chronicle x forced (ids.take n) ++
    ((ids.take n).foldl (visit x forced) r).stop.chronicle x forced (ids.drop n)

/-- When a program has asked already, nothing more is asked for. -/
theorem visitsStopped_of_aborted {ids : List CellId}
    (hrun : (ids.foldl (visit x forced) r).kernel.session.aborted = true) :
    r.visitsStopped x forced ids.length ids = ids.foldl (visit x forced) r ∧
      r.chronicleStopped x forced ids.length ids = r.chronicle x forced ids := by
  unfold visitsStopped chronicleStopped
  rw [List.take_length, List.drop_length]
  refine ⟨?_, List.append_nil _⟩
  show stop _ = _
  unfold stop
  rw [← hrun]

end Round

/-- What a round leaves that was asked to stop after the first `n` cells of its plan. -/
def stoppedOnce (k : Kernel κ σ) (x : Executor κ σ) (roots forced : OrderedSet CellId) (n : Nat) :
    Kernel κ σ :=
  ((k.readied roots {}).visitsStopped x forced n
    (k.graph.plan roots).order).kernel.collectGarbage.scheduleWrites

/-- What happens to cells and states in such a round, before the readers of what was written are
scheduled. -/
def stoppedTold (k : Kernel κ σ) (x : Executor κ σ) (roots forced : OrderedSet CellId) (n : Nat) :
    List Happening :=
  (k.readied roots {}).chronicleStopped x forced n (k.graph.plan roots).order

theorem visitsStopped_status (hg : k.graph.WellFormed) (x : Executor κ σ)
    (roots forced : OrderedSet CellId) (n : Nat) :
    let order := (k.graph.plan roots).order
    let ended := ((k.readied roots {}).visitsStopped x forced n order).kernel
    Undisturbed k ended ∧ ∀ a, (a ∉ order →
      (k.readied roots {}).kernel.graph.status? a ≠ some .queued ∧
        (k.readied roots {}).kernel.graph.status? a ≠ some .running) →
      ended.graph.status? a ≠ some .queued ∧ ended.graph.status? a ≠ some .running := by
  intro order ended
  have hbegin := underway_readied hg roots
  obtain ⟨hfirst, hstatus⟩ := visits_status x forced (order.take n) fun id hid =>
    hbegin.live_now (List.mem_of_mem_take hid)
  obtain ⟨hsecond, hstatus'⟩ := visits_status x forced (order.drop n)
    (r := ((order.take n).foldl (Round.visit x forced) (k.readied roots {})).stop) fun id hid => by
      have hshape : ((order.take n).foldl (Round.visit x forced)
        (k.readied roots {})).stop.kernel.graph.shape = _ := hfirst.shape
      rw [Graph.contains_congr hshape]
      exact hbegin.live_now (List.mem_of_mem_drop hid)
  -- the request to stop is part of the session, and cells are not
  refine ⟨hbegin.toUndisturbed.trans (hfirst.trans ?_), fun a ha => hstatus' a fun hdrop =>
    hstatus a fun htake => ha fun hin => ?_⟩
  · exact ⟨hsecond.shape, hsecond.config, hsecond.parked, hsecond.turns, hsecond.pending,
      hsecond.forced⟩
  · rw [← List.take_append_drop n order] at hin
    exact (List.mem_append.1 hin).elim htake hdrop

theorem InOrder.stoppedOnce (hk : InOrder S k) (x : Executor κ σ)
    (roots forced : OrderedSet CellId) (n : Nat) :
    InOrder S (k.stoppedOnce x roots forced n) := by
  obtain ⟨hundisturbed, hstatus⟩ := visitsStopped_status hk.wellFormed x roots forced n
  have hended : InOrder S ((k.readied roots {}).visitsStopped x forced n
      (k.graph.plan roots).order).kernel :=
    hk.reshaped hundisturbed.shape hundisturbed.parked fun a =>
      hstatus a (hk.readied_status roots)
  exact (hended.asked (collectGarbage_asked _)).asked (.scheduleWrites hended.wellFormed)

/-- A round in which a program asks to stop is stopped when it is over, at the latest. -/
theorem runOnce_of_aborted
    (hrun : (k.runOnce x roots forced {}).2.session.aborted = true) :
    (k.runOnce x roots forced {}).2 =
        k.stoppedOnce x roots forced (k.graph.plan roots).order.length ∧
      k.roundHappenings x roots forced =
        k.roundOf (k.stoppedOnce x roots forced (k.graph.plan roots).order.length) roots
          (k.stoppedTold x roots forced (k.graph.plan roots).order.length) := by
  have hround : (k.runOnce x roots forced {}).2 = _ :=
    congrArg Prod.snd (runOnce_eq k x roots forced {})
  rw [hround, scheduleWrites_session] at hrun
  obtain ⟨hended, htold⟩ := Round.visitsStopped_of_aborted hrun
  have heq : (k.runOnce x roots forced {}).2 =
      k.stoppedOnce x roots forced (k.graph.plan roots).order.length := by
    rw [hround]
    unfold stoppedOnce
    rw [hended]
  refine ⟨heq, ?_⟩
  unfold roundHappenings stoppedTold
  rw [heq, htold]

/-- In a round that is stopped, a cell of the plan runs, or it is not idle afterwards. -/
theorem Accounted.stoppedOnce (ha : Accounted (· ∈ k.pending) h k) (hg : k.graph.WellFormed)
    (n : Nat) :
    let told := k.clearPending.stoppedTold x k.pending forced n
    let ended := k.clearPending.stoppedOnce x k.pending forced n
    Accounted (· ∈ ended.readersOfWrites (Happening.writes told))
      (h ++ k.clearPending.roundOf ended k.pending told) ended := by
  intro told ended
  have hbegin := underway_readied (k := k.clearPending) hg k.pending
  have hreadied : Accounted (fun id => id ∈ (k.graph.plan k.pending).order.take n ∨
      id ∈ (k.graph.plan k.pending).order.drop n ∨ False) _ _ := (ha.readied hg).mono fun id hid => by
    rw [← List.take_append_drop n (k.graph.plan k.pending).order] at hid
    exact (List.mem_append.1 hid).imp_right .inl
  have hlive : ∀ id ∈ (k.graph.plan k.pending).order.take n,
      (k.clearPending.readied k.pending {}).kernel.graph.contains id = true :=
    fun id hid => hbegin.live_now (List.mem_of_mem_take hid)
  have hfirst := hreadied.visits x forced _ hlive
  have hshape := (visits_status x forced _ hlive).1.shape
  -- asking the run to stop moves no cell
  have hstopped : Accounted _ _ (((k.graph.plan k.pending).order.take n).foldl
    (Round.visit x forced) (k.clearPending.readied k.pending {})).stop.kernel := hfirst
  have hsecond := hstopped.visits x forced _ fun id hid => by
    refine (Graph.contains_congr hshape id).trans ?_
    exact hbegin.live_now (List.mem_of_mem_drop hid)
  rw [List.append_assoc] at hsecond
  exact hsecond.ended ((visitsStopped_status (k := k.clearPending) hg x k.pending forced n).1.wellFormed
    hg)

/-- A round that is not stopped makes the readers of what was written pending. -/
theorem Accounted.runOnce (ha : Accounted (· ∈ k.pending) h k) (hg : k.graph.WellFormed) :
    Accounted (· ∈ (k.clearPending.runOnce x k.pending forced {}).2.pending)
      (h ++ k.clearPending.roundHappenings x k.pending forced)
      (k.clearPending.runOnce x k.pending forced {}).2 := by
  have hbegin := underway_readied (k := k.clearPending) hg k.pending
  have hreadied : Accounted (fun id => id ∈ (k.graph.plan k.pending).order ∨ False) _ _ :=
    (ha.readied hg).mono fun _ => .inl
  have hvisits := hreadied.visits x forced _ fun _ => hbegin.live_now
  have hundisturbed := (visitedAll_status (k := k.clearPending) hg x k.pending forced).1
  refine (hvisits.ended (hundisturbed.wellFormed hg)).mono fun id hid => ?_
  -- the queue has what was written in the round
  have hqueue := Round.writes_visits x forced (k.graph.plan k.pending).order fun _ =>
    hbegin.live_now
  have hasked := Asked.scheduleWrites (k := (k.clearPending.visitedAll x k.pending
    forced).collectGarbage) (hundisturbed.wellFormed hg)
  refine (has_pending_scheduleWrites (k.clearPending.visitedAll x k.pending
    forced).collectGarbage).2 (.inl ?_)
  change id ∈ (k.clearPending.visitedAll x k.pending
    forced).collectGarbage.scheduleWrites.readersOfWrites _ at hid
  rw [readersOfWrites_congr hasked.graph hasked.names] at hid
  obtain ⟨w, hw, hreader⟩ := mem_readersOfWrites.1 hid
  refine mem_readersOfWrites.2 ⟨w, ?_, hreader⟩
  exact hqueue ▸ List.mem_append_right _ hw

/-! ## §4. Calls. -/

/-- A call that runs until nothing is pending or until it is stopped, at any moment and by whomever:
from the kernel `k` to the kernel `k'`, with all that happens, and with what was written in the
round that was stopped, if one was. -/
inductive Call (x : Executor κ σ) :
    Kernel κ σ → List Happening → List StateWrite → Kernel κ σ → Prop
  /-- Nothing is pending once the queued events and writes are applied. -/
  | idle {k ready : Kernel κ σ} :
    ready = (k.drain x).2.scheduleWrites → ready.pending.isEmpty = true →
    Call x k (k.drainHappenings x) [] ready
  /-- A round is not stopped, and the call goes on. -/
  | round {k ready k₁ k' : Kernel κ σ} {h : List Happening} {last : List StateWrite} :
    ready = (k.drain x).2.scheduleWrites →
    k₁ = (ready.clearPending.runOnce x ready.pending ready.forced {}).2 →
    k₁.session.aborted = false → Call x k₁ h last k' →
    Call x k (k.drainHappenings x ++
      (ready.clearPending.roundHappenings x ready.pending ready.forced ++ h)) last k'
  /-- The call is asked to stop when a round has come to `n` of its cells, or after the last one. -/
  | stopped {k ready ended : Kernel κ σ} {told : List Happening} (n : Nat) :
    ready = (k.drain x).2.scheduleWrites →
    ended = ready.clearPending.stoppedOnce x ready.pending ready.forced n →
    told = ready.clearPending.stoppedTold x ready.pending ready.forced n →
    Call x k (k.drainHappenings x ++ ready.clearPending.roundOf ended ready.pending told)
      (Happening.writes told) ended.clearPending

/-- A run that is stopped only by the programs that it runs is such a call. -/
theorem Call.of_run {rounds : Nat} {report report' : RunReport}
    (hrun : runRounds x rounds k report = some (report', k')) :
    ∃ last, Call x k (roundsHappenings x rounds k) last k' := by
  induction rounds generalizing k report with
  | zero => cases hrun
  | succ rounds ih =>
    unfold runRounds at hrun
    dsimp only at hrun
    rw [roundsHappenings]
    split at hrun
    · rename_i hnone
      obtain ⟨-, rfl⟩ := Prod.mk.inj (Option.some.inj hrun)
      rw [if_pos hnone, List.append_nil]
      exact ⟨[], .idle rfl hnone⟩
    · rename_i hsome
      rw [if_neg hsome]
      rw [runOnce_report] at hrun
      dsimp only at hrun ⊢
      split at hrun
      · rename_i haborted
        obtain ⟨-, rfl⟩ := Prod.mk.inj (Option.some.inj hrun)
        rw [if_pos haborted, List.append_nil]
        obtain ⟨hended, htold⟩ := runOnce_of_aborted haborted
        rw [hended, htold]
        exact ⟨_, .stopped _ rfl rfl rfl⟩
      · rename_i haborted
        rw [if_neg haborted]
        obtain ⟨last, hcall⟩ := ih hrun
        exact ⟨last, .round rfl rfl (Bool.eq_false_of_not_eq_true haborted) hcall⟩

/-- When a call returns, every idle cell ran whenever it had been scheduled, but for the readers of
what was written in the round that was stopped. -/
theorem Call.accounted {h₀ : List Happening} {last : List StateWrite} (hcall : Call x k h last k')
    (hk : InOrder (fun _ => True) k) (ha : Accounted (· ∈ k.pending) h₀ k) :
    InOrder (fun _ => True) k' ∧ Accounted (· ∈ k'.readersOfWrites last) (h₀ ++ h) k' := by
  induction hcall generalizing h₀ with
  | @idle k ready hready hnone =>
    subst hready
    refine ⟨hk.ready x, (ha.ready hk x).mono fun id hin => ?_⟩
    exact absurd hin (by simp [Membership.mem, OrderedSet.has_of_isEmpty hnone])
  | @round k ready k₁ k' h last hready hround _ _ ih =>
    subst hready hround
    have hk₁ := hk.ready x
    have ha₁ := ha.ready hk x
    rw [← List.append_assoc, ← List.append_assoc]
    exact ih (hk₁.clearPending.round x _ _ {}) (ha₁.runOnce hk₁.wellFormed)
  | @stopped k ready ended told n hready hended htold =>
    subst hready hended htold
    have hk₁ := hk.ready x
    have ha₁ := ha.ready hk x
    have hended := hk₁.clearPending.stoppedOnce x (k.drain x).2.scheduleWrites.pending
      (k.drain x).2.scheduleWrites.forced n
    rw [← List.append_assoc]
    exact ⟨hended.clearPending, ha₁.stoppedOnce hk₁.wellFormed n⟩

/-- The readers of what was written in the round that was stopped are scheduled last of all. -/
theorem Call.scheduled_last {last : List StateWrite} (hcall : Call x k h last k')
    (hid : id ∈ k'.readersOfWrites last) : ¬ RanAfter (· = .scheduled id) id h := by
  induction hcall with
  | idle => simp [readersOfWrites] at hid
  | round _ _ _ _ ih =>
    exact fun hran => ih hid (RanAfter.append_iff.1 (RanAfter.append_iff.1 hran).2).2
  | @stopped k ready ended told n _ _ _ =>
    intro hran
    -- nothing but such scheduling comes after them
    have hreaders := (RanAfter.append_iff.1 (RanAfter.append_iff.1 hran).2).2
    have hin : Happening.scheduled id ∈
        (ended.readersOfWrites (Happening.writes told)).map Happening.scheduled :=
      List.mem_map.2 ⟨id, hid, rfl⟩
    obtain ⟨earlier, later, heq⟩ := List.append_of_mem hin
    have hlater : .ran id ∈ (ended.readersOfWrites (Happening.writes told)).map
        Happening.scheduled := by
      rw [heq]
      exact List.mem_append_right _ (List.mem_cons_of_mem _ (hreaders earlier _ later heq rfl))
    simp at hlater

/-- A cell is lost: it was scheduled and did not run afterwards, and it is neither stale nor in
error. -/
structure Lost (h : List Happening) (k : Kernel κ σ) (id : CellId) : Prop where
  scheduled : ∃ earlier later, h = earlier ++ .scheduled id :: later ∧ .ran id ∉ later
  unmarked : ∃ now, k.status? id = some now ∧ now ≠ .stale ∧ now ≠ .error

omit [HashFunction] in
theorem Lost.not_ranAfter (hlost : Lost h k id) : ¬ RanAfter (· = .scheduled id) id h := by
  obtain ⟨earlier, later, heq, hnot⟩ := hlost.scheduled
  exact fun hran => hnot (hran earlier _ later heq rfl)

/-- **What a stop loses.**  Of the cells that a call schedules, whenever and by whomever it is
stopped, it loses just the readers of what was written in the round that was stopped, and of these
those that are idle: they are not pending any more, and they are not marked either. -/
theorem Call.lost_iff {y : Executor κ σ} (hk : Reachable y k) {last : List StateWrite}
    (hcall : Call x k h last k') :
    Lost h k' id ↔ id ∈ k'.readersOfWrites last ∧ k'.status? id = some .idle := by
  have hbegin : Accounted (· ∈ k.pending) [] k := fun id _ =>
    .inr (.of_none fun e he => absurd he List.not_mem_nil)
  obtain ⟨hk', ha⟩ := hcall.accounted hk.inOrder hbegin
  rw [List.nil_append] at ha
  constructor
  · intro hlost
    obtain ⟨now, hnow, hstale, herror⟩ := hlost.unmarked
    -- between rounds a cell that is neither stale nor in error is idle
    have hgraph : k'.graph.status? id = some now := by
      unfold status? at hnow
      split at hnow
      · exact absurd (Option.some.inj hnow).symm herror
      · exact hnow
    obtain ⟨hqueued, hrunning⟩ := hk'.atRest id
    rw [hgraph] at hqueued hrunning
    have hidle : now = .idle := by
      cases now <;> simp_all
    subst hidle
    exact ⟨(ha id hgraph).resolve_right hlost.not_ranAfter, hnow⟩
  · rintro ⟨hreader, hidle⟩
    refine ⟨?_, .idle, hidle, by simp, by simp⟩
    have hnot := hcall.scheduled_last hreader
    unfold RanAfter at hnot
    push Not at hnot
    obtain ⟨earlier, e, later, heq, rfl, hlater⟩ := hnot
    exact ⟨earlier, later, heq, hlater⟩

end Kernel

/-! ## §5. A writer that stops the run. -/

/-- A cell that creates a state, one that reads it, and one that writes it and stops the run. -/
def Kernel.interruption : Kernel Unit Unit :=
  ({ config := { cellCache := false }, session := { own := () } } : Kernel Unit Unit).registerCells
    [⟨⟨0⟩, "create", .ofList ["s"], .empty⟩, ⟨⟨1⟩, "y = s", .ofList ["y"], .ofList ["s"]⟩,
      ⟨⟨2⟩, "stop", .empty, .ofList ["s"]⟩]

theorem Kernel.interruption_reachable :
    let _ := Sha256.hashFunction
    Reachable Executor.scribe interruption := by
  intro _
  have hstart : Kernel.start { cellCache := false } {} 0 () =
      .ok ({ config := { cellCache := false }, session := { own := () } } : Kernel Unit Unit) := rfl
  exact .apply (.register _) (.start hstart)

/-- The reader ran before the state was written, and then the run is over. -/
theorem Kernel.interruption_lost :
    let _ := Sha256.hashFunction
    ∃ report k' last, interruption.runUntilIdle? .scribe 4 = some (report, k') ∧
      Call .scribe { interruption with session.aborted := false }
        (interruption.runHappenings .scribe 4) last k' ∧
      Lost (interruption.runHappenings .scribe 4) k' ⟨1⟩ := by
  intro _
  have hall : (interruption.runUntilIdle? .scribe 4).map (fun p => p.2.status? ⟨1⟩) =
      some (some .idle) := by cbv
  obtain ⟨⟨report, k'⟩, hrun, hidle⟩ := Option.map_eq_some_iff.1 hall
  have htold : interruption.runHappenings .scribe 4 =
      [.scheduled ⟨0⟩, .scheduled ⟨1⟩, .scheduled ⟨2⟩, .ran ⟨0⟩, .ran ⟨1⟩, .ran ⟨2⟩,
        .wrote ⟨⟨0⟩, .bool true, .cell ⟨2⟩⟩] ++ .scheduled ⟨1⟩ :: [] := by cbv
  obtain ⟨last, hcall⟩ := Call.of_run hrun
  refine ⟨report, k', last, hrun, hcall, ⟨_, _, htold, List.not_mem_nil⟩, .idle, hidle, ?_⟩
  exact ⟨by simp, by simp⟩

/-- What is lost there is a reader of what was written in the round that was stopped. -/
theorem Kernel.interruption_lostReader :
    let _ := Sha256.hashFunction
    ∃ k h last k', Reachable Executor.scribe k ∧ Call Executor.scribe k h last k' ∧
      Lost h k' ⟨1⟩ ∧ ⟨1⟩ ∈ k'.readersOfWrites last := by
  intro _
  obtain ⟨report, k', last, -, hcall, hlost⟩ := interruption_lost
  have hk := interruption_reachable.host { interruption.session with aborted := false }
  exact ⟨_, _, last, k', hk, hcall, hlost, ((hcall.lost_iff hk).1 hlost).1⟩

/-- A stop can lose a cell: here a program writes a state and then stops the run. -/
theorem Kernel.stop_loses_reader :
    let _ := Sha256.hashFunction
    ¬ ∀ (k k' : Kernel Unit Unit) (h : List Happening) (last : List StateWrite),
      Reachable Executor.scribe k → Call Executor.scribe k h last k' → ∀ id, ¬ Lost h k' id := by
  intro _ hall
  obtain ⟨report, k', last, -, hcall, hlost⟩ := interruption_lost
  exact hall _ k' _ last (interruption_reachable.host { interruption.session with aborted := false })
    hcall ⟨1⟩ hlost

end Notebook
