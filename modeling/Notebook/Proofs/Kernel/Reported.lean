/-
  Notebook.Proofs.Kernel.Reported — the messages tell every status.

  Whoever follows the messages about statuses and deletions has a status in mind for every cell
  (`heard`), and a cell is reported when that is its status.  Not every step reports: a cell that is
  put into the graph gets its status silently.  But then it is to be run, and whatever a round does
  with a cell it publishes.  So every cell that is not to be run is reported.

  Main results:
    * `Announced` — what publishes the status that it gives, for one cell and for many,
    * `reported_runOnce` — a round reports the cells that it comes to,
    * `commandAll?_reported` — after any operations, every cell that is not to be run is reported.
-/
import Notebook.Proofs.Kernel.Bookkeeping
import Notebook.Proofs.Kernel.Followers
import Notebook.Proofs.Kernel.Rejected

namespace Notebook

open Relation

/-! ## §1. What is heard. -/

/-- The statuses that one has in mind after a message. -/
def hear (known : CellId → CellStatus) : Message → CellId → CellStatus
  | .status id now => Function.update known id now
  | .deleted id => Function.update known id .idle
  | _ => known

/-- The statuses that one has in mind after messages; at first every cell counts as idle. -/
def heard (messages : List Message) : CellId → CellStatus := messages.foldl hear fun _ => .idle

namespace Kernel

variable {κ σ : Type} {k k' k₁ : Kernel κ σ} {a id : CellId} {ids ids' : List CellId}
  {S : CellSpec → Prop}

theorem heard_publish (k : Kernel κ σ) (m : Message) :
    heard (k.publish m).messages = hear (heard k.messages) m := by
  unfold heard messages publish
  rw [List.reverse_cons, List.foldl_append]
  rfl

/-- The messages give a cell the status that it has; a cell that is not known counts as idle. -/
def Reported (k : Kernel κ σ) (a : CellId) : Prop :=
  heard k.messages a = (k.status? a).getD .idle

/-- What neither publishes anything nor gives the cell a status. -/
theorem Reported.of_eq (h : k.Reported a) (hpublished : k'.published = k.published)
    (hstatus : k'.status? a = k.status? a) : k'.Reported a := by
  unfold Reported messages at h ⊢
  rw [hpublished, hstatus, h]

/-- A message that is not about a status. -/
theorem Reported.publish (h : k.Reported a) {m : Message} (hm : ∀ known, hear known m = known) :
    (k.publish m).Reported a := by
  unfold Reported at h ⊢
  rw [heard_publish, hm, h]
  rfl

/-! ## §2. Announced statuses. -/

/-- Live and not parked. -/
def Stands (k : Kernel κ σ) (id : CellId) : Prop :=
  k.graph.contains id = true ∧ k.parked.contains id = false

theorem Coherent.stands (hk : k.Coherent) (hlive : k.graph.contains id = true) : k.Stands id := by
  refine ⟨hlive, Bool.eq_false_iff.2 fun hparked => ?_⟩
  rw [hk.parked_not_live id hparked] at hlive
  cases hlive

/-- The cells were given statuses, and this was published; so they are reported, and every cell that
was reported still is. -/
structure Announced (k k' : Kernel κ σ) (ids : List CellId) : Prop extends Undisturbed k k' where
  reported : ∀ a, a ∈ ids ∨ k.Reported a → k'.Reported a

theorem Stands.undisturbed (h : k.Stands id) (hsame : Undisturbed k k') : k'.Stands id := by
  refine ⟨?_, ?_⟩
  · rw [Graph.contains_congr hsame.shape]
    exact h.1
  · rw [hsame.parked]
    exact h.2

namespace Announced

theorem trans (h : Announced k k₁ ids) (h' : Announced k₁ k' ids') :
    Announced k k' (ids ++ ids') where
  toUndisturbed := h.toUndisturbed.trans h'.toUndisturbed
  reported := by
    intro a ha
    rw [List.mem_append, or_assoc, or_left_comm] at ha
    exact h'.reported a (ha.imp_right (h.reported a))

/-- Neither the graph nor the messages have changed. -/
theorem of_eq (hsame : Undisturbed k k') (hgraph : k'.graph = k.graph)
    (hpublished : k'.published = k.published) : Announced k k' [] where
  toUndisturbed := hsame
  reported := by
    intro a ha
    refine (ha.resolve_left List.not_mem_nil).of_eq hpublished ?_
    unfold Kernel.status?
    rw [hgraph, hsame.parked]

/-- The graph has not changed, and a message was published that is not about a status. -/
theorem told {m : Message} (hsame : Undisturbed k k') (hgraph : k'.graph = k.graph)
    (hpublished : k'.published = m :: k.published) (hm : ∀ known, hear known m = known) :
    Announced k k' [] where
  toUndisturbed := hsame
  reported := by
    intro a ha
    have hsaid := (ha.resolve_left List.not_mem_nil).publish hm
    refine hsaid.of_eq hpublished ?_
    unfold Kernel.status? Kernel.publish
    rw [hgraph, hsame.parked]

theorem setStatus (hid : k.Stands id) (now : CellStatus) :
    Announced k (k.setStatus id now) [id] where
  toUndisturbed := ⟨Graph.shape_setStatus .., rfl, rfl, rfl, rfl, rfl⟩
  reported := by
    intro a ha
    obtain ⟨c, hc⟩ := Option.isSome_iff_exists.1 hid.1
    have hheard : heard (k.setStatus id now).messages a =
        if a = id then now else heard k.messages a := by
      unfold Kernel.setStatus
      rw [heard_publish]
      exact Function.update_apply ..
    have hstatus : (k.setStatus id now).status? a =
        if a = id then some now else k.status? a := by
      unfold Kernel.setStatus Kernel.status? Kernel.publish
      dsimp only
      rw [status?_setStatus_of_live hc]
      by_cases heq : a = id
      · rw [heq, hid.2, if_pos rfl, if_pos rfl, if_neg Bool.false_ne_true]
      · rw [if_neg heq, if_neg heq]
    unfold Reported
    rw [hheard, hstatus]
    split
    · rfl
    · rename_i hne
      exact ha.resolve_left fun h => hne (List.mem_singleton.1 h)

theorem unbindAll (k : Kernel κ σ) (names : List String) : Announced k (k.unbindAll names) [] := by
  rw [unbindAll_eq]
  exact of_eq ⟨rfl, rfl, rfl, rfl, rfl, rfl⟩ rfl rfl

theorem failCell (hid : k.Stands id) (now : CellStatus) (e : CellError) :
    Announced k (k.failCell id now e) [id] := by
  have hunbound := unbindAll k (((k.graph.cell? id).map fun c => c.defs.toList).getD [])
  have hstatus := hunbound.trans (setStatus (hid.undisturbed hunbound.toUndisturbed) now)
  exact hstatus.trans (told ⟨rfl, rfl, rfl, rfl, rfl, rfl⟩ rfl rfl fun _ => rfl)

theorem markDangling (hid : k.Stands id) : Announced k (k.markDangling id) [id] := by
  unfold Kernel.markDangling
  dsimp only
  split
  · exact setStatus hid .stale
  · have hmissing : Announced k (k.publish (.danglingRefs id (k.graph.danglingRefs id))) [] :=
      told ⟨rfl, rfl, rfl, rfl, rfl, rfl⟩ rfl rfl fun _ => rfl
    exact hmissing.trans (setStatus (hid.undisturbed hmissing.toUndisturbed) .stale)

/-- What is announced for each of several cells is announced for all of them. -/
theorem foldl {α β : Type} (kernel : β → Kernel κ σ) (key : α → CellId) {f : β → α → β}
    (hf : ∀ b i, (kernel b).Stands (key i) → Announced (kernel b) (kernel (f b i)) [key i])
    (items : List α) (b : β) (hstand : ∀ i ∈ items, (kernel b).Stands (key i)) :
    Announced (kernel b) (kernel (items.foldl f b)) (items.map key) := by
  induction items generalizing b with
  | nil => exact of_eq (.refl _) rfl rfl
  | cons first rest ih =>
    have hfirst := hf b first (hstand first List.mem_cons_self)
    exact hfirst.trans (ih (f b first) fun i hi =>
      (hstand i (List.mem_cons_of_mem _ hi)).undisturbed hfirst.toUndisturbed)

theorem each {f : Kernel κ σ → CellId → Kernel κ σ}
    (hf : ∀ k id, k.Stands id → Announced k (f k id) [id]) (hstand : ∀ id ∈ ids, k.Stands id) :
    Announced k (ids.foldl f k) ids := by
  have h := foldl (fun k => k) (fun id => id) hf ids k hstand
  rwa [List.map_id'] at h

/-! ### Running cells. -/

theorem succeed (c : Cell) (hid : k.Stands c.id) (output : CellOutput) (cached : Bool) :
    Announced k (k.succeed c output cached) [c.id] :=
  (setStatus hid .idle).trans (told ⟨rfl, rfl, rfl, rfl, rfl, rfl⟩ rfl rfl fun _ => rfl)

theorem bindOutputs (k : Kernel κ σ) (c : Cell) (output : CellOutput) :
    Announced k (k.bindOutputs c output) [] := by
  obtain ⟨names, elements, heq, -⟩ := bindOutputs_eq k c output
  rw [heq]
  exact of_eq ⟨rfl, rfl, rfl, rfl, rfl, rfl⟩ rfl rfl

theorem withSession (k : Kernel κ σ) (s : Session κ σ) :
    Announced k { k with session := s } [] :=
  of_eq ⟨rfl, rfl, rfl, rfl, rfl, rfl⟩ rfl rfl

theorem begun (c : Cell) (hid : k.Stands c.id) : Announced k (k.begun c) [c.id] := by
  unfold Kernel.begun
  simp only [unbindAll_eq]
  exact (setStatus hid .running).trans (of_eq ⟨rfl, rfl, rfl, rfl, rfl, rfl⟩ rfl rfl)

theorem keepResult (k : Kernel κ σ) (id : CellId) (strategy : Option Strategy)
    (frame : Option Frame) (output : CellOutput) [HashFunction] :
    Announced k (k.keepResult id strategy frame output) [] := by
  obtain ⟨cache, heq⟩ := keepResult_eq k id strategy frame output
  rw [heq]
  exact withSession k _

theorem serve? (k : Kernel κ σ) (c : Cell) (forced : Bool) (strategy : Option Strategy) :
    Announced k (k.serve? c forced strategy).2 [] := by
  obtain ⟨cache, heq⟩ := serve?_eq k c forced strategy
  rw [heq]
  exact withSession k _

variable [HashFunction]

theorem execute {c : Cell} (hid : k.Stands c.id) (x : Executor κ σ) (request : Request)
    (strategy : Option Strategy) :
    Announced k (k.execute x c request strategy).2 [c.id] := by
  unfold Kernel.execute
  -- a program moves the session only
  have hran : Announced k (k.perform c.id (x.execute request)).2.2 [] := withSession k _
  generalize k.perform c.id (x.execute request) = performed at hran ⊢
  obtain ⟨result, frame, k₁⟩ := performed
  cases result with
  | error text => exact hran.trans (failCell (hid.undisturbed hran.toUndisturbed) _ _)
  | ok output =>
    have hbound := hran.trans (bindOutputs k₁ c output)
    have hkept := hbound.trans (keepResult (k₁.bindOutputs c output) c.id strategy frame output)
    exact hkept.trans (succeed c (hid.undisturbed hkept.toUndisturbed) output false)

theorem runCell (hid : k.Stands id) (x : Executor κ σ) (forced : Bool) :
    Announced k (k.runCell x id forced).2 [id] := by
  obtain ⟨c, hc⟩ := Option.isSome_iff_exists.1 hid.1
  obtain rfl := Graph.cell?_id hc
  rw [runCell_live x forced hc, runLive_eq]
  have hbegun := begun c hid
  have hserved := serve? (k.begun c) c forced ((k.begun c).identityOf? c)
  generalize (k.begun c).serve? c forced ((k.begun c).identityOf? c) = served at hserved ⊢
  obtain ⟨found, k₁⟩ := served
  have hasked : Announced k k₁ [c.id] := hbegun.trans hserved
  have hstands := hid.undisturbed hasked.toUndisturbed
  -- the cell is announced once when it begins and once when it ends
  have htwice : ∀ {k' : Kernel κ σ}, Announced k k' ([c.id] ++ [c.id]) → Announced k k' [c.id] :=
    fun h => ⟨h.toUndisturbed, fun a ha => h.reported a (ha.imp_left (List.mem_append_left _))⟩
  cases found with
  | some output =>
    have hbound := hasked.trans (bindOutputs k₁ c output)
    exact htwice (hbound.trans (succeed c (hid.undisturbed hbound.toUndisturbed) output true))
  | none => exact htwice (hasked.trans (execute hstands x _ _))

/-- Whatever a round does with a cell it announces. -/
theorem visit (x : Executor κ σ) (forced : OrderedSet CellId) {r : Round κ σ}
    (hid : r.kernel.Stands id) : Announced r.kernel (r.visit x forced id).kernel [id] := by
  rw [kernel_visit]
  split
  · exact setStatus hid .stale
  · split
    · exact failCell hid _ _
    · exact runCell hid x _

end Announced

/-! ## §3. Rounds. -/

theorem heard_of_published (h : k'.published = k.published) :
    heard k'.messages = heard k.messages := by
  unfold messages
  rw [h]

theorem published_scheduleWrites (k : Kernel κ σ) : k.scheduleWrites.published = k.published := by
  have hfold : ∀ (readers : Kernel κ σ → StateWrite → List CellId) (writes : List StateWrite)
      (k : Kernel κ σ),
      (writes.foldl (fun k w => k.schedule (readers k w)) k).published = k.published := by
    intro readers writes
    induction writes with
    | nil => exact fun k => rfl
    | cons w rest ih => exact fun k => ih _
  exact hfold _ k.session.states.writes
    { k with session.states := { k.session.states with writes := [] } }

/-- What only asks and says nothing about statuses reports as much as before. -/
theorem Reported.asked (h : k.Reported a) (hasked : Asked k k')
    (hheard : heard k'.messages = heard k.messages) : k'.Reported a := by
  unfold Reported Kernel.status? at h ⊢
  rw [hheard, h, hasked.graph, hasked.parked]

theorem announced_readied (hk : k.Coherent) (roots : OrderedSet CellId) :
    Announced k (k.readied roots {}).kernel
      ((k.graph.plan roots).blocked.map (·.1) ++ (k.graph.plan roots).order) := by
  have hplanned : ∀ id ∈ (k.graph.plan roots).blocked.map (·.1) ++ (k.graph.plan roots).order,
      k.Stands id := fun id hid =>
    hk.stands (Graph.contains_of_mem_descendants ((plan_perm hk.wellFormed roots).mem_iff.1 hid))
  have hblock : ∀ (r : Round κ σ) (b : CellId × BlockReason), r.kernel.Stands b.1 →
      Announced r.kernel (r.block b.1 b.2).kernel [b.1] := by
    intro r b hid
    unfold Round.block
    cases b.2 <;> exact .failCell hid _ _
  have hblocked := Announced.foldl Round.kernel (·.1) hblock (k.graph.plan roots).blocked
    { kernel := k, report := {} }
    fun b hb => hplanned b.1 (List.mem_append_left _ (List.mem_map_of_mem hb))
  exact hblocked.trans (.each (fun k id hid => .setStatus hid .queued) fun id hid =>
    (hplanned id (List.mem_append_right _ hid)).undisturbed hblocked.toUndisturbed)

/-- **A round reports every cell that it comes to**, and takes no report back. -/
theorem reported_runOnce [HashFunction] (hk : k.Coherent) (x : Executor κ σ)
    (roots forced : OrderedSet CellId) (report : RunReport)
    (h : a ∈ k.graph.descendants roots ∨ k.Reported a) :
    (k.runOnce x roots forced report).2.Reported a := by
  have hg := hk.wellFormed
  have hready := announced_readied hk roots
  have hvisited : Announced (k.readied roots {}).kernel (k.visitedAll x roots forced)
      ((k.graph.plan roots).order.map fun id => id) :=
    Announced.foldl Round.kernel (fun id => id) (f := Round.visit x forced)
      (fun r id hid => .visit x forced hid) _ _ fun id hid =>
      (hk.stands (Graph.contains_of_mem_descendants ((plan_perm hg roots).mem_iff.1
        (List.mem_append_right _ hid)))).undisturbed hready.toUndisturbed
  have hcome : (k.visitedAll x roots forced).Reported a :=
    hvisited.reported a (.inr (hready.reported a (h.imp_left (plan_perm hg roots).mem_iff.2)))
  refine hcome.asked (runOnce_asked hg x roots forced report) (heard_of_published ?_)
  rw [runOnce_report, runOnce_eq]
  exact published_scheduleWrites _

/-! ## §4. Edits. -/

/-- Every cell that is not to be run is reported. -/
def Outspoken (k : Kernel κ σ) : Prop := ∀ a, k.pending.has a = false → k.Reported a

/-- Removing a cell marks its children, and what is reported of the others stays true. -/
theorem reported_removeFromGraph (hk : k.Coherent) (hne : a ≠ id) (h : k.Reported a) :
    (k.removeFromGraph id).Reported a := by
  unfold removeFromGraph
  split
  · exact h
  · rename_i c hc
    simp only [unbindAll_eq]
    refine (Announced.each (fun k id hid => .markDangling hid) fun child hchild => ?_).reported a
      (.inr (h.of_eq rfl ?_))
    · have hedge := (Graph.mem_children hk.wellFormed).1 hchild
      refine ⟨?_, (hk.stands hedge.contains_right).2⟩
      show ((k.graph.unregister id).cell? child).isSome = true
      rw [Graph.cell?_unregister, if_neg hedge.ne.symm]
      exact hedge.contains_right
    · unfold Kernel.status?
      dsimp only
      rw [Graph.status?_unregister, if_neg hne]

theorem status?_of_parked (h : k.parked.contains a = true) : k.status? a = some .error := by
  unfold Kernel.status?
  rw [if_pos h]

/-- The status comes from the graph and the parked cells. -/
theorem status?_congr (hgraph : k'.graph.status? a = k.graph.status? a)
    (hparked : k'.parked.get? a = k.parked.get? a) : k'.status? a = k.status? a := by
  unfold Kernel.status? Table.contains
  rw [hgraph, hparked]

theorem reported_park (hk : k.Coherent) (spec : CellSpec) (conflict : Graph.Conflict)
    (h : a = spec.id ∨ k.Reported a) : (k.park spec conflict).Reported a := by
  have hheard : heard (k.park spec conflict).messages =
      hear (heard (k.removeFromGraph spec.id).messages) (.status spec.id .error) :=
    (heard_publish _ _).trans (heard_publish _ _)
  by_cases ha : a = spec.id
  · -- the refusal is published
    have hparked : (k.park spec conflict).parked.contains a = true :=
      congrArg Option.isSome ((Table.get?_insert ..).trans (if_pos ha))
    unfold Reported
    rw [hheard, status?_of_parked hparked, ha]
    exact Function.update_self ..
  · have hbefore := reported_removeFromGraph hk ha (h.resolve_left ha)
    have hstatus : (k.park spec conflict).status? a = (k.removeFromGraph spec.id).status? a :=
      status?_congr rfl ((Table.get?_insert ..).trans (if_neg ha))
    unfold Reported at hbefore ⊢
    rw [hheard, hstatus, ← hbefore]
    exact Function.update_of_ne ha ..

theorem pending_removeFromGraph (hk : k.Coherent) (id : CellId) :
    (k.removeFromGraph id).pending = k.pending := by
  cases hc : k.graph.cell? id with
  | none => rw [removeFromGraph_of_not_live (by simp [Graph.contains, hc])]
  | some c =>
    obtain rfl := Graph.cell?_id hc
    exact (removeFromGraph_removed hk hc).pending

namespace Outspoken

theorem park (ho : k.Outspoken) (hk : k.Coherent) (spec : CellSpec) (conflict : Graph.Conflict) :
    (k.park spec conflict).Outspoken := by
  intro a hnot
  refine reported_park hk spec conflict (or_iff_not_imp_left.2 fun ha => ho a ?_)
  have hpending : (k.park spec conflict).pending.has a = true ↔
      a ≠ spec.id ∧ (k.removeFromGraph spec.id).pending.has a = true := OrderedSet.has_remove
  rw [pending_removeFromGraph hk] at hpending
  exact Bool.eq_false_iff.2 fun h => Bool.eq_false_iff.1 hnot (hpending.2 ⟨ha, h⟩)

end Outspoken

/-- An accepted cell takes no report back but its own, and the readers of dropped names are
marked. -/
theorem reported_accept (hk : k.Coherent) {spec : CellSpec} {g : Graph}
    (haccept : k.graph.register spec = .ok g) (dropped : List String) (hne : a ≠ spec.id)
    (h : k.Reported a) :
    Reported
      (let k := (k.accept spec.id g).unbindAll dropped
      (k.graph.readersOf dropped).toList.foldl markDangling k) a := by
  have hg := hk.wellFormed.register haccept
  have hunbound := Announced.unbindAll (k.accept spec.id g) dropped
  have hmarked : ∀ id ∈ (g.readersOf dropped).toList, (k.accept spec.id g).Stands id := by
    intro id hid
    have hlive := Asked.live_of_readersOf hg (OrderedSet.mem_toList.1 hid)
    refine ⟨hlive, ?_⟩
    have hget : (k.accept spec.id g).parked.get? id =
      if id = spec.id then none else k.parked.get? id := Table.get?_erase ..
    unfold Table.contains
    rw [hget]
    split
    · rfl
    · rename_i hother
      exact (hk.stands (((contains_register hk.wellFormed haccept id).1 hlive).resolve_left
        hother)).2
  have haccepted : (k.accept spec.id g).Reported a :=
    h.of_eq rfl (status?_congr
      ((Graph.status?_register hk.wellFormed haccept a).trans (if_neg hne))
      ((Table.get?_erase ..).trans (if_neg hne)))
  refine (Announced.each (fun k id hid => .markDangling hid) fun id hid => ?_).reported a
    (.inr (hunbound.reported a (.inr haccepted)))
  rw [unbindAll_eq] at hid
  exact (hmarked id hid).undisturbed hunbound.toUndisturbed

namespace Outspoken

theorem registerOne (ho : k.Outspoken) (hk : k.Coherent) (spec : CellSpec) :
    (k.registerOne spec).Outspoken := by
  cases hchanged : k.isUnchanged spec with
  | true =>
    unfold Kernel.registerOne
    rwa [if_pos hchanged]
  | false =>
    cases haccept : k.graph.register spec with
    | error conflict =>
      unfold Kernel.registerOne
      rw [hchanged, if_neg Bool.false_ne_true, haccept]
      exact ho.park hk spec conflict
    | ok g =>
      obtain ⟨dropped, hregistered⟩ :=
        registerOne_registered (S := fun _ => True) hk trivial hchanged haccept
      intro a hnot
      obtain ⟨hne, hbefore⟩ := hregistered.not_pending hnot
      have h := reported_accept hk haccept
        ((((k.graph.cell? spec.id).map Cell.defs).getD .empty).diff spec.defs).toList hne
        (ho a hbefore)
      unfold Kernel.registerOne
      rwa [hchanged, if_neg Bool.false_ne_true, haccept]

theorem retry (ho : k.Outspoken) (hk : k.Coherent) (hwait : WaitFor S k) (id : CellId) :
    (k.retry id).Outspoken := by
  cases hp : k.parked.get? id with
  | none =>
    unfold Kernel.retry
    rwa [hp]
  | some p =>
    rcases retry_cases hk hwait hp with ⟨g, hregistered⟩ | ⟨hsame, -⟩
    · intro a hnot
      obtain ⟨hne, hbefore⟩ := hregistered.not_pending hnot
      have h := reported_accept hk hregistered.accepted [] hne (ho a hbefore)
      obtain rfl := (hwait id p hp).1
      have hretry : k.retry p.spec.id = k.accept p.spec.id g := by
        simp only [Kernel.retry, hp, hregistered.accepted]
      rw [hretry]
      exact h
    · rwa [hsame]

/-- What keeps the reports for each element of a list keeps them for all of it. -/
theorem foldl {α : Type} {f : Kernel κ σ → α → Kernel κ σ} {items : List α}
    (hedits : ∀ k : Kernel κ σ, k.Coherent → WaitFor S k → ∀ i ∈ items,
      ReflTransGen (Edit S) k (f k i))
    (hf : ∀ k : Kernel κ σ, k.Coherent → WaitFor S k → k.Outspoken → ∀ i ∈ items,
      (f k i).Outspoken)
    (hk : k.Coherent) (hwait : WaitFor S k) (ho : k.Outspoken) :
    (items.foldl f k).Outspoken := by
  induction items generalizing k with
  | nil => exact ho
  | cons first rest ih =>
    have hfirst := hedits k hk hwait first List.mem_cons_self
    refine ih (fun k hc hw i hi => hedits k hc hw i (List.mem_cons_of_mem _ hi))
      (fun k hc hw ho i hi => hf k hc hw ho i (List.mem_cons_of_mem _ hi))
      (coherent_of_edits hk hfirst) (waitFor_of_edits hwait hfirst)
      (hf k hk hwait ho first List.mem_cons_self)

theorem retryParked (ho : k.Outspoken) (hk : k.Coherent) (hwait : WaitFor S k) :
    k.retryParked.Outspoken :=
  foldl (fun _ hc hw id _ => retry_edits hc hw id) (fun _ hc hw ho id _ => ho.retry hc hw id)
    hk hwait ho

theorem registerCells (ho : k.Outspoken) (hk : k.Coherent) (hwait : WaitFor (fun _ => True) k)
    (specs : List CellSpec) : (k.registerCells specs).Outspoken := by
  have hregister : ReflTransGen (Edit fun _ => True) k (specs.foldl Kernel.registerOne k) :=
    foldl_edits (fun _ hk _ _ _ => registerOne_edits hk trivial) hk hwait
  have hall : (specs.foldl Kernel.registerOne k).Outspoken :=
    foldl (fun _ hk _ _ _ => registerOne_edits hk trivial)
      (fun _ hk _ ho spec _ => ho.registerOne hk spec) hk hwait ho
  exact hall.retryParked (coherent_of_edits hk hregister) (waitFor_of_edits hwait hregister)

/-- When a deletion is published, the cell is gone and the others are reported as before. -/
theorem exists_without (hk : k.Coherent) (id : CellId) : ∃ k₁ : Kernel κ σ,
    k.without id =
      ({ k₁ with errors := k₁.errors.erase id }.unschedule id).publish (.deleted id) ∧
    k₁.status? id = none ∧ k₁.pending = k.pending ∧
    ∀ a, a ≠ id → k.Reported a → k₁.Reported a := by
  refine ⟨_, rfl, ?_⟩
  split
  · rename_i hparked
    refine ⟨?_, rfl, fun a hne h => h.of_eq rfl (status?_congr rfl ?_)⟩
    · have hget : (k.parked.erase id).get? id = none := (Table.get?_erase ..).trans (if_pos rfl)
      unfold Kernel.status? Table.contains
      rw [hget]
      exact Graph.status?_of_not_live (hk.parked_not_live id hparked)
    · exact (Table.get?_erase ..).trans (if_neg hne)
  · rename_i hnot
    refine ⟨?_, pending_removeFromGraph hk id, fun a hne h => reported_removeFromGraph hk hne h⟩
    unfold Kernel.status?
    rw [parked_removeFromGraph hk, if_neg hnot]
    exact Graph.status?_of_not_live (removeFromGraph_edits (S := fun _ => True) hk id).2

/-- A deleted cell counts as idle, which it does for those who hear of the deletion. -/
theorem without (ho : k.Outspoken) (hk : k.Coherent) (id : CellId) : (k.without id).Outspoken := by
  obtain ⟨k₁, heq, hnone, hpending, hothers⟩ := exists_without hk id
  have hheard : heard (k.without id).messages = hear (heard k₁.messages) (.deleted id) := by
    rw [heq]
    exact heard_publish _ _
  have hstatus : ∀ a, (k.without id).status? a = k₁.status? a := by
    rw [heq]
    exact fun a => rfl
  have hqueued : (k.without id).pending = k.pending.remove id := by
    rw [heq, ← hpending]
    rfl
  intro a hnot
  by_cases ha : a = id
  · unfold Reported
    rw [hheard, hstatus, ha, hnone]
    exact Function.update_self ..
  · have hbefore : k.pending.has a = false := by
      rw [hqueued] at hnot
      exact Bool.eq_false_iff.2 fun h =>
        Bool.eq_false_iff.1 hnot (OrderedSet.has_remove.2 ⟨ha, h⟩)
    have h := hothers a ha (ho a hbefore)
    unfold Reported at h ⊢
    rw [hheard, hstatus, ← h]
    exact Function.update_of_ne ha ..

theorem deleteCell (ho : k.Outspoken) (hk : k.Coherent) (hwait : WaitFor (fun _ => True) k)
    (h : k.deleteCell id = .ok k') : k'.Outspoken := by
  have hchain : ReflTransGen (Edit fun _ => True) k (k.without id) := without_edits hk id
  rw [deleteCell_eq h]
  exact (ho.without hk id).retryParked (coherent_of_edits hk hchain)
    (waitFor_of_edits hwait hchain)

end Outspoken

/-! ## §5. Whatever is asked of a kernel. -/

section

variable [HashFunction]

/-- An event that neither registers nor deletes cells says nothing about statuses. -/
theorem heard_apply (x : Executor κ σ) {event : Event}
    (hregister : ∀ specs, event ≠ .register specs) (hdelete : ∀ cell, event ≠ .delete cell) :
    heard (k.apply x event).2.messages = heard k.messages := by
  cases event with
  | register specs => exact absurd rfl (hregister specs)
  | delete cell => exact absurd rfl (hdelete cell)
  | run cells =>
    refine heard_of_published ?_
    show (k.runCells cells.toList).2.published = _
    rw [runCells_eq]
  | setElement element value =>
    show heard (k.orUnchanged (k.setElementValue element value)).2.messages = _
    cases h : k.setElementValue element value with
    | error e => rfl
    | ok k' =>
      obtain ⟨root, patch, elements, -, -, rfl⟩ := setElementValue_eq h
      exact heard_publish ({ k with session := { k.session with elements } } : Kernel κ σ) _
  | updateModel model patch =>
    refine heard_of_published ?_
    show (k.orUnchanged (k.updateModel x model patch)).2.published = _
    unfold Kernel.updateModel
    cases k.session.dispatch x model patch with
    | error e => rfl
    | ok told => exact published_scheduleWrites _
  | setState state value =>
    refine heard_of_published ?_
    show (k.orUnchanged (k.setState state value)).2.published = _
    unfold Kernel.setState
    split
    · exact published_scheduleWrites _
    · rfl
  | watchTriggered watch => rfl
  | complete request start => exact heard_publish k _

namespace Outspoken

omit [HashFunction] in
theorem asked (ho : k.Outspoken) (h : Asked k k')
    (hheard : heard k'.messages = heard k.messages) : k'.Outspoken := by
  intro a hnot
  refine (ho a ?_).asked h hheard
  exact Bool.eq_false_iff.2 fun hin => Bool.eq_false_iff.1 hnot (h.pending a hin)

theorem apply (ho : k.Outspoken) (hk : InOrder (fun _ => True) k) (x : Executor κ σ)
    (event : Event) : (k.apply x event).2.Outspoken := by
  cases event with
  | register specs => exact ho.registerCells hk.toCoherent hk.waitFor specs
  | delete cell =>
    show (k.orUnchanged (k.deleteCell cell)).2.Outspoken
    cases h : k.deleteCell cell with
    | error e => exact ho
    | ok k' => exact ho.deleteCell hk.toCoherent hk.waitFor h
  | _ =>
    exact ho.asked (apply_asked x hk.wellFormed (by simp) (by simp))
      (heard_apply x (by simp) (by simp))

omit [HashFunction] in
theorem scheduleWrites (ho : k.Outspoken) (hg : k.graph.WellFormed) : k.scheduleWrites.Outspoken :=
  ho.asked (.scheduleWrites hg) (heard_of_published (published_scheduleWrites k))

theorem applyAll (ho : k.Outspoken) (hk : InOrder (fun _ => True) k) (x : Executor κ σ)
    (events : List Event) : (k.applyAll x events).Outspoken := by
  induction events generalizing k with
  | nil => exact ho
  | cons event rest ih => exact ih (ho.apply hk x event) (hk.apply x event)

/-- The queued events and writes are applied before a round. -/
theorem ready (ho : k.Outspoken) (hk : InOrder (fun _ => True) k) (x : Executor κ σ) :
    (k.drain x).2.scheduleWrites.Outspoken := by
  have hinbox : Asked k { k with session.inbox := [] } := .told k _ _
  have hdrained := (ho.asked hinbox rfl).applyAll (hk.asked hinbox) x
    (Event.coalesce k.session.inbox)
  have hinOrder := (hk.asked hinbox).applyAll x (Event.coalesce k.session.inbox)
  exact hdrained.scheduleWrites hinOrder.wellFormed

/-- A round from all cells that are to be run leaves every cell reported. -/
theorem round {x : Executor κ σ} (ho : k.Outspoken) (hk : Reachable x k) (report : RunReport)
    (a : CellId) : (k.clearPending.runOnce x k.pending k.forced report).2.Reported a := by
  have hready := hk.clearPending.inOrder
  refine reported_runOnce hready.toCoherent x k.pending k.forced report ?_
  cases hpending : k.pending.has a with
  | true =>
    have hlive : k.clearPending.graph.contains a = true := hk.bookkept.pending_live a hpending
    exact .inl (Graph.mem_descendants_of_root hready.wellFormed hpending hlive)
  | false => exact .inr ((ho a hpending).of_eq rfl rfl)

theorem runRounds {x : Executor κ σ} {rounds : Nat} {report report' : RunReport}
    (ho : k.Outspoken) (hk : Reachable x k)
    (hrun : Kernel.runRounds x rounds k report = some (report', k')) : k'.Outspoken := by
  induction rounds generalizing k report with
  | zero => cases hrun
  | succ rounds ih =>
    unfold Kernel.runRounds at hrun
    dsimp only at hrun
    -- events and writes come first, and then a round if anything is pending
    have hdrained : Reachable x (k.drain x).2 :=
      applyAll_keeps (fun _ event h => h.apply event) (hk.host _) _
    replace ho := ho.ready hk.inOrder x
    replace hk := hdrained.scheduleWrites
    generalize (k.drain x).2.scheduleWrites = k₁ at hrun hk ho
    split at hrun
    · obtain ⟨-, rfl⟩ := Prod.mk.inj (Option.some.inj hrun)
      exact ho
    · have hround := ho.round hk report
      split at hrun
      · -- what was pending when the run was stopped is forgotten, but it is reported
        obtain ⟨-, rfl⟩ := Prod.mk.inj (Option.some.inj hrun)
        exact fun a _ => (hround a).of_eq rfl rfl
      · exact ih (fun a _ => hround a) (hk.clearPending.round ..) hrun

/-- A reset makes every live cell idle, and says so. -/
theorem reset {x : Executor κ σ} (ho : k.Outspoken) (hk : Reachable x k) : k.reset.Outspoken := by
  intro a _
  have hcoherent := hk.inOrder.toCoherent
  have hstand : ∀ id ∈ k.graph.ids, Stands ({ k with
      names := k.names.reset
      session := k.session.reset
      pending := .empty
      forced := .empty
      errors := k.errors.filter fun _ e => e.isMultipleDefinition } : Kernel κ σ) id :=
    fun id hid => hcoherent.stands (Graph.mem_ids.1 hid)
  refine (Announced.each (fun k id hid => .setStatus hid .idle) hstand).reported a ?_
  cases hlive : k.graph.contains a with
  | true => exact .inl (Graph.mem_ids.2 hlive)
  | false =>
    refine .inr ((ho a (Bool.eq_false_iff.2 fun hpending => ?_)).of_eq rfl rfl)
    rw [hk.bookkept.pending_live a hpending] at hlive
    cases hlive

theorem command? {x : Executor κ σ} (ho : k.Outspoken) (hk : Reachable x k)
    {command : Command κ σ} (h : k.command? x command = some k') : k'.Outspoken := by
  cases command with
  | init initial =>
    obtain rfl := Option.some.inj h
    exact fun a hnot => (ho a hnot).of_eq rfl rfl
  | reset =>
    obtain rfl := Option.some.inj h
    exact ho.reset hk
  | apply event =>
    obtain rfl := Option.some.inj h
    exact ho.apply hk.inOrder x event
  | runUntilIdle rounds =>
    obtain ⟨⟨report, k₁⟩, hrun, rfl⟩ := Option.map_eq_some_iff.1 h
    have hbegun : Outspoken { k with session.aborted := false } :=
      fun a hnot => (ho a hnot).of_eq rfl rfl
    exact hbegun.runRounds (hk.host _) hrun
  | host session =>
    obtain rfl := Option.some.inj h
    exact fun a hnot => (ho a hnot).of_eq rfl rfl

theorem commandAll? {x : Executor κ σ} {commands : List (Command κ σ)} (ho : k.Outspoken)
    (hk : Reachable x k) (hrun : k.commandAll? x commands = some k') : k'.Outspoken := by
  induction commands generalizing k with
  | nil =>
    obtain rfl := Option.some.inj hrun
    exact ho
  | cons first rest ih =>
    obtain ⟨k₁, hfirst, hrest⟩ := Option.bind_eq_some_iff.1 hrun
    have hone : k.commandAll? x [first] = some k₁ := by
      unfold Kernel.commandAll?
      rw [List.foldlM_cons, hfirst]
      rfl
    exact ih (ho.command? hk hfirst) (hk.commandAll? hone) hrest

end Outspoken

/-- **The messages tell every status.**  After any operations on a new kernel, in any order and with
any executor, whether or not a run is stopped: whoever has followed the messages has the right
status in mind for every live or parked cell that is not to be run, and takes for idle whatever is
neither. -/
theorem commandAll?_reported (x : Executor κ σ) {config : Config} {disk : Disk} {clock : Nat}
    {own : σ} {k₀ : Kernel κ σ} (hstart : Kernel.start config disk clock own = .ok k₀)
    {commands : List (Command κ σ)} (hrun : k₀.commandAll? x commands = some k)
    (hnot : k.pending.has id = false) :
    heard k.messages id = (k.status? id).getD .idle := by
  have hbegin : k₀.Outspoken := by
    obtain ⟨-, cache, heq⟩ := start_eq hstart
    rw [heq]
    exact fun a _ => rfl
  exact hbegin.commandAll? (.start hstart) hrun id hnot

end

/-! ## §6. Waiting in line. -/

/-- Nothing is to be run any more: who followed the messages knows that cell 1 waits for its name,
and that cell 2, which was put in place silently, is idle. -/
theorem waitingInLine_reported :
    let _ := Sha256.hashFunction
    ∃ k₀ k : Kernel Unit Unit, Kernel.start { cellCache := false } {} 0 () = .ok k₀ ∧
      k₀.commandAll? .refuser waitingInLine = some k ∧ k.pending.isEmpty = true ∧
      heard k.messages ⟨1⟩ = .error ∧ heard k.messages ⟨2⟩ = .idle := by
  intro _
  let k₀ : Kernel Unit Unit := { config := { cellCache := false }, session := { own := () } }
  have hstart : Kernel.start { cellCache := false } {} 0 () = .ok k₀ := rfl
  have hend : (k₀.commandAll? .refuser waitingInLine).map (fun k =>
      (k.pending.isEmpty, k.status? ⟨1⟩, k.status? ⟨2⟩)) =
      some (true, some .error, some .idle) := by cbv
  obtain ⟨k, hrun, hfacts⟩ := Option.map_eq_some_iff.1 hend
  simp only [Prod.mk.injEq] at hfacts
  obtain ⟨hnone, hparked, hidle⟩ := hfacts
  have hall := fun id => commandAll?_reported .refuser hstart hrun
    (OrderedSet.has_of_isEmpty hnone id)
  refine ⟨k₀, k, hstart, hrun, hnone, (hall ⟨1⟩).trans ?_, (hall ⟨2⟩).trans ?_⟩
  · rw [hparked]
    rfl
  · rw [hidle]
    rfl

end Kernel

end Notebook
