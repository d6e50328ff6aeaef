/-
  Notebook.Proofs.Kernel.Edit — every edit is a chain of three kinds of steps.

  Registering and deleting cells comes down to removing a live cell, to putting a cell into the
  graph, and to keeping the books of a cell that is not live.  `Edit` says all that such a step can
  do.  What is to hold after any edit is shown for the three kinds, and never again for parking,
  retrying, redefining and deleting one by one.

  Main results:
    * `registerCells_edits` / `deleteCell_edits` — both operations are chains of steps,
    * `Coherent.edit` — well-formed graphs stay so, and a parked cell is never live,
    * `WaitFor.edit` — parked registrations are registrations that were asked for.
-/
import Notebook.Proofs.Cache.Store
import Notebook.Proofs.Kernel.Round

namespace Notebook

open Relation

/-! ## §1. Sessions that only forget. -/

/-- What edits leave of a session: nothing is queued or asked for, and no result is added. -/
structure Session.Unmoved {κ σ : Type} (s s' : Session κ σ) : Prop where
  inbox : s'.inbox = s.inbox
  aborted : s'.aborted = s.aborted
  writes : s'.states.writes = s.states.writes
  pinned : s'.cache.pinned = s.cache.pinned
  entries : ∀ scope digest entry, s'.cache.entry? scope digest = some entry →
    s.cache.entry? scope digest = some entry

namespace Session.Unmoved

variable {κ σ : Type} {s s' s₁ : Session κ σ}

theorem refl (s : Session κ σ) : Unmoved s s := ⟨rfl, rfl, rfl, rfl, fun _ _ _ h => h⟩

theorem trans (h : Unmoved s s₁) (h' : Unmoved s₁ s') : Unmoved s s' :=
  ⟨h'.inbox.trans h.inbox, h'.aborted.trans h.aborted, h'.writes.trans h.writes,
    h'.pinned.trans h.pinned, fun scope digest entry he =>
      h.entries scope digest entry (h'.entries scope digest entry he)⟩

end Session.Unmoved

namespace Kernel

variable {κ σ : Type} {k k' : Kernel κ σ} {c : Cell} {a b id : CellId} {spec : CellSpec}
  {g : Graph} {dropped : List String} {S : CellSpec → Prop}

/-! ## §2. Marking. -/

theorem markAll_eq (k : Kernel κ σ) (cells : List CellId) :
    ∃ published, cells.foldl markDangling k =
      { k with graph := k.graph.withStatus .stale cells, published } := by
  induction cells generalizing k with
  | nil => exact ⟨k.published, rfl⟩
  | cons first rest ih =>
    obtain ⟨published, heq⟩ := ih (k.markDangling first)
    have hfirst : ∃ p, k.markDangling first =
        { k with graph := k.graph.setStatus first .stale, published := p } := by
      unfold markDangling
      dsimp only
      split
      · exact ⟨_, rfl⟩
      · exact ⟨_, rfl⟩
    obtain ⟨p, hfirst⟩ := hfirst
    refine ⟨published, ?_⟩
    rw [List.foldl_cons, heq, hfirst]
    rfl

/-! ## §3. Steps. -/

/-- A live cell was removed: its names are unbound, and its children are stale. -/
structure Removed (k k' : Kernel κ σ) (c : Cell) : Prop where
  live : k.graph.cell? c.id = some c
  shape : k'.graph.shape = (k.graph.unregister c.id).shape
  status_child : ∀ a, k.graph.Edge c.id a → k'.graph.status? a = some .stale
  status_other : ∀ a, a ≠ c.id → ¬ k.graph.Edge c.id a → k'.graph.status? a = k.graph.status? a
  names : ∀ name, k'.names.get? name =
    if c.defs.has name then none else k.names.get? name
  config : k'.config = k.config
  errors : k'.errors = k.errors
  pending : k'.pending = k.pending
  forced : k'.forced = k.forced
  parked : k'.parked = k.parked
  session : k.session.Unmoved k'.session
  tables : ∃ cache, k'.session = { k.session.removeCell c.id with
    elements := c.defs.toList.foldl ElementRegistry.unbind k.session.elements
    cache }

/-- The error `e` says that the registration was refused by some graph, and why. -/
def Refused (spec : CellSpec) (marker : String) (e : CellError) : Prop :=
  ∃ (g : Graph) (conflict : Graph.Conflict), g.WellFormed ∧ g.privateMarker = marker ∧
    g.register spec = .error conflict ∧ e = conflictError conflict

/-- The books of a cell that is not live were changed. -/
structure Noted (S : CellSpec → Prop) (k k' : Kernel κ σ) (id : CellId) : Prop where
  not_live : k.graph.contains id = false
  graph : k'.graph = k.graph
  names : k'.names = k.names
  config : k'.config = k.config
  errors : ∀ a, a ≠ id → k'.errors.get? a = k.errors.get? a
  pending : ∀ a, a ≠ id → (k'.pending.has a = true ↔ k.pending.has a = true)
  parked : ∀ a, a ≠ id → k'.parked.get? a = k.parked.get? a
  asked : ∀ p, k'.parked.get? id = some p → p.spec.id = id ∧ S p.spec
  /-- A cell that waits has waited before, or it was refused just now. -/
  explained : ∀ p, k'.parked.get? id = some p →
    k.parked.get? id = some p ∧ k'.errors.get? id = k.errors.get? id ∨
    ∃ e, k'.errors.get? id = some e ∧ Refused p.spec k.graph.privateMarker e
  session : k'.session = k.session

/-- A cell was put into the graph, to be run: `dropped` are the names that it defined before and no
longer defines. -/
structure Registered (S : CellSpec → Prop) (k k' : Kernel κ σ) (spec : CellSpec) (g : Graph)
    (dropped : List String) : Prop where
  asked : S spec
  accepted : k.graph.register spec = .ok g
  mem_dropped : ∀ name, name ∈ dropped ↔ spec.defs.has name = false ∧
    ∃ c, k.graph.cell? spec.id = some c ∧ c.defs.has name = true
  shape : k'.graph.shape = g.shape
  status_reader : ∀ a, (g.readersOf dropped).has a = true → k'.graph.status? a = some .stale
  status_other : ∀ a, (g.readersOf dropped).has a = false → k'.graph.status? a = g.status? a
  names : ∀ name, k'.names.get? name = if name ∈ dropped then none else k.names.get? name
  config : k'.config = k.config
  errors : ∀ a, k'.errors.get? a = if a = spec.id then none else k.errors.get? a
  pending : ∀ a, k'.pending.has a = true ↔ a = spec.id ∨ k.pending.has a = true
  forced : k'.forced = k.forced
  parked : ∀ a, k'.parked.get? a = if a = spec.id then none else k.parked.get? a
  session : k.session.Unmoved k'.session
  tables : k'.session = { k.session with
    elements := dropped.foldl ElementRegistry.unbind k.session.elements }

namespace Removed

theorem isPrivate (h : Removed k k' c) (name : String) :
    k'.graph.isPrivate name = k.graph.isPrivate name := Graph.isPrivate_congr h.shape name

/-- A live cell was live before, and is not the removed one. -/
theorem before {d : Cell} (h : Removed k k' c) (hd : k'.graph.cell? a = some d) :
    a ≠ c.id ∧ ∃ e, k.graph.cell? a = some e ∧ e.spec = d.spec := by
  obtain ⟨e, he, hshape⟩ := Graph.cell?_congr h.shape hd
  rw [Graph.cell?_unregister] at he
  split at he
  · cases he
  · rename_i hne
    exact ⟨hne, e, he, Cell.spec_of_shape hshape⟩

theorem not_live (h : Removed k k' c) : k'.graph.contains c.id = false := by
  rw [Graph.contains_congr h.shape, Graph.contains, Graph.cell?_unregister, if_pos rfl]
  rfl

theorem status (h : Removed k k' c) (hne : a ≠ c.id) :
    k'.graph.status? a = some .stale ∨ k'.graph.status? a = k.graph.status? a := by
  by_cases hedge : k.graph.Edge c.id a
  · exact .inl (h.status_child a hedge)
  · exact .inr (h.status_other a hne hedge)

theorem edge_iff (h : Removed k k' c) :
    k'.graph.Edge a b ↔ k.graph.Edge a b ∧ a ≠ c.id ∧ b ≠ c.id := by
  rw [Graph.edge_congr h.shape, Graph.edge_unregister]

end Removed

namespace Noted

theorem ne_of_live (h : Noted S k k' id) (hlive : k.graph.contains a = true) : a ≠ id := by
  rintro rfl
  rw [h.not_live] at hlive
  cases hlive

theorem not_pending (h : Noted S k k' id) (hne : a ≠ id) (hnot : k'.pending.has a = false) :
    k.pending.has a = false :=
  Bool.eq_false_iff.2 fun hhas => Bool.eq_false_iff.1 hnot ((h.pending a hne).2 hhas)

end Noted

namespace Registered

theorem isPrivate (h : Registered S k k' spec g dropped) (hg : k.graph.WellFormed)
    (name : String) : k'.graph.isPrivate name = k.graph.isPrivate name := by
  rw [Graph.isPrivate_congr h.shape]
  unfold Graph.isPrivate
  rw [(Graph.register_ok hg h.accepted).2.1]

/-- A live cell other than the registered one was live before. -/
theorem before {d : Cell} (h : Registered S k k' spec g dropped) (hg : k.graph.WellFormed)
    (hne : a ≠ spec.id) (hd : k'.graph.cell? a = some d) :
    ∃ e, k.graph.cell? a = some e ∧ g.cell? a = some e ∧ e.spec = d.spec := by
  obtain ⟨e, he, hshape⟩ := Graph.cell?_congr h.shape hd
  refine ⟨e, ?_, he, Cell.spec_of_shape hshape⟩
  rwa [Graph.cell?_register hg h.accepted, if_neg hne] at he

theorem status_kept (h : Registered S k k' spec g dropped) (hg : k.graph.WellFormed)
    (hne : a ≠ spec.id) (hreader : (g.readersOf dropped).has a = false) :
    k'.graph.status? a = k.graph.status? a := by
  rw [h.status_other a hreader, Graph.status?_register hg h.accepted, if_neg hne]

theorem status (h : Registered S k k' spec g dropped) (hg : k.graph.WellFormed)
    (hne : a ≠ spec.id) :
    k'.graph.status? a = some .stale ∨ k'.graph.status? a = k.graph.status? a := by
  cases hreader : (g.readersOf dropped).has a with
  | true => exact .inl (h.status_reader a hreader)
  | false => exact .inr (h.status_kept hg hne hreader)

theorem edge_iff (h : Registered S k k' spec g dropped) (hg : k.graph.WellFormed)
    (ha : a ≠ spec.id) (hb : b ≠ spec.id) : k'.graph.Edge a b ↔ k.graph.Edge a b := by
  rw [Graph.edge_congr h.shape, Graph.edge_register hg h.accepted ha hb]

theorem not_pending (h : Registered S k k' spec g dropped) (hnot : k'.pending.has a = false) :
    a ≠ spec.id ∧ k.pending.has a = false := by
  have himp : ¬ (a = spec.id ∨ k.pending.has a = true) := fun hhas =>
    Bool.eq_false_iff.1 hnot ((h.pending a).2 hhas)
  obtain ⟨hne, hbefore⟩ := not_or.1 himp
  exact ⟨hne, Bool.eq_false_iff.2 hbefore⟩

end Registered

/-- One step of an edit that registers cells described by `S`. -/
inductive Edit (S : CellSpec → Prop) (k k' : Kernel κ σ) : Prop
  | removed {c : Cell} : Removed k k' c → Edit S k k'
  | noted {id : CellId} : Noted S k k' id → Edit S k k'
  | registered {spec : CellSpec} {g : Graph} {dropped : List String} :
    Registered S k k' spec g dropped → Edit S k k'

/-- Every parked registration is known under its own name, and was asked for. -/
def WaitFor (S : CellSpec → Prop) (k : Kernel κ σ) : Prop :=
  ∀ id p, k.parked.get? id = some p → p.spec.id = id ∧ S p.spec

/-- The graph is well formed, and a cell is live or parked, but not both. -/
structure Coherent (k : Kernel κ σ) : Prop where
  wellFormed : k.graph.WellFormed
  parked_not_live : ∀ id, k.parked.contains id = true → k.graph.contains id = false

theorem contains_register (hg : k.graph.WellFormed) (h : k.graph.register spec = .ok g)
    (a : CellId) : g.contains a = true ↔ a = spec.id ∨ k.graph.contains a = true := by
  unfold Graph.contains
  rw [Graph.cell?_register hg h]
  by_cases ha : a = spec.id <;> simp [ha]

theorem Registered.contains (h : Registered S k k' spec g dropped) (hg : k.graph.WellFormed) :
    k'.graph.contains a = true ↔ a = spec.id ∨ k.graph.contains a = true := by
  rw [Graph.contains_congr h.shape, contains_register hg h.accepted]

/-- A step keeps the graph well formed, and no cell both live and parked. -/
theorem Coherent.edit (hk : k.Coherent) (h : Edit S k k') : k'.Coherent := by
  have hg := hk.wellFormed
  cases h with
  | @removed c h =>
    refine ⟨(hg.unregister c.id).congr h.shape.symm, fun id hid => ?_⟩
    rw [h.parked] at hid
    refine Bool.eq_false_iff.2 fun hlive => ?_
    obtain ⟨d, hd⟩ := Option.isSome_iff_exists.1 hlive
    obtain ⟨-, e, he, -⟩ := h.before hd
    have hout := hk.parked_not_live id hid
    rw [Graph.contains_of_cell? he] at hout
    cases hout
  | @noted id h =>
    refine ⟨h.graph ▸ hg, fun a ha => ?_⟩
    rw [h.graph]
    by_cases heq : a = id
    · rw [heq]
      exact h.not_live
    · unfold Table.contains at ha
      rw [h.parked a heq] at ha
      exact hk.parked_not_live a ha
  | @registered spec g dropped h =>
    -- a cell that is put in place waits no longer
    refine ⟨(hg.register h.accepted).congr h.shape.symm, fun a ha => ?_⟩
    unfold Table.contains at ha
    rw [h.parked] at ha
    by_cases heq : a = spec.id
    · rw [if_pos heq] at ha
      cases ha
    · rw [if_neg heq] at ha
      have hout := hk.parked_not_live a ha
      refine Bool.eq_false_iff.2 fun hlive => ?_
      rcases (h.contains hg).1 hlive with hlive | hlive
      · exact heq hlive
      · rw [hout] at hlive
        cases hlive

theorem WaitFor.edit (hk : WaitFor S k) (h : Edit S k k') : WaitFor S k' := by
  intro a p hp
  cases h with
  | removed h =>
    rw [h.parked] at hp
    exact hk a p hp
  | @noted id h =>
    by_cases heq : a = id
    · subst heq
      exact h.asked p hp
    · rw [h.parked a heq] at hp
      exact hk a p hp
  | @registered spec g dropped h =>
    rw [h.parked] at hp
    split at hp
    · cases hp
    · exact hk a p hp

/-- An edit binds no names. -/
theorem Edit.names_subset (h : Edit S k k') {name : String} {b : Binding}
    (hb : k'.names.get? name = some b) : k.names.get? name = some b := by
  cases h with
  | removed h =>
    rw [h.names] at hb
    split at hb
    · cases hb
    · exact hb
  | noted h => exact h.names ▸ hb
  | registered h =>
    rw [h.names] at hb
    split at hb
    · cases hb
    · exact hb

/-- An edit leaves the marker of private names alone. -/
theorem Edit.marker (h : Edit S k k') (hg : k.graph.WellFormed) :
    k'.graph.privateMarker = k.graph.privateMarker := by
  cases h with
  | @removed c h => exact (Graph.privateMarker_congr h.shape).trans rfl
  | noted h => rw [h.graph]
  | @registered spec g dropped h =>
    exact (Graph.privateMarker_congr h.shape).trans (Graph.register_ok hg h.accepted).2.1

/-- An edit makes no cell idle but the one that it registers, which is to be run. -/
theorem Edit.idle (h : Edit S k k') (hg : k.graph.WellFormed) {d : Cell}
    (hd : k'.graph.cell? id = some d) (hidle : k'.graph.status? id = some .idle) :
    k'.pending.has id = true ∨ ∃ e, k.graph.cell? id = some e ∧ e.spec = d.spec ∧
      k.graph.status? id = some .idle ∧
      (k.pending.has id = true → k'.pending.has id = true) := by
  cases h with
  | @removed c h =>
    obtain ⟨hne, e, he, hspec⟩ := h.before hd
    rcases h.status hne with hs | hs
    · simp [hs] at hidle
    · exact .inr ⟨e, he, hspec, hs ▸ hidle, fun hin => h.pending ▸ hin⟩
  | @noted other h =>
    rw [h.graph] at hd hidle
    have hne := h.ne_of_live (Graph.contains_of_cell? hd)
    exact .inr ⟨d, hd, rfl, hidle, (h.pending id hne).2⟩
  | @registered spec g dropped h =>
    by_cases hne : id = spec.id
    · exact .inl ((h.pending id).2 (.inl hne))
    · obtain ⟨e, he, -, hspec⟩ := h.before hg hne hd
      rcases h.status hg hne with hs | hs
      · simp [hs] at hidle
      · exact .inr ⟨e, he, hspec, hs ▸ hidle, fun hin => (h.pending id).2 (.inr hin)⟩

theorem Edit.session (h : Edit S k k') : k.session.Unmoved k'.session := by
  cases h with
  | removed h => exact h.session
  | noted h => exact h.session ▸ .refl _
  | registered h => exact h.session

/-! ## §4. Operations are chains of steps. -/

theorem removeFromGraph_removed (hk : k.Coherent) (hc : k.graph.cell? c.id = some c) :
    Removed k (k.removeFromGraph c.id) c := by
  unfold removeFromGraph
  simp only [hc, unbindAll_eq]
  obtain ⟨published, heq⟩ := markAll_eq
    ({ k with
      graph := k.graph.unregister c.id
      names := c.defs.toList.foldl Namespace.remove k.names
      session :=
        let s : Session κ σ := { k.session with
          elements := c.defs.toList.foldl ElementRegistry.unbind k.session.elements }
        let s := s.removeCell c.id
        { s with cache := (s.cache.invalidate (.ofCell c.id)).2 } } : Kernel κ σ)
    (k.graph.children c.id)
  have hmem := fun a => Graph.mem_children (a := c.id) (b := a) hk.wellFormed
  dsimp only at heq
  rw [heq]
  refine
    { live := hc
      shape := Graph.shape_withStatus ..
      status_child := fun a hedge => ?_
      status_other := fun a hne hno => ?_
      names := fun name => ?_
      config := rfl
      errors := rfl
      pending := rfl
      forced := rfl
      parked := rfl
      session := ⟨rfl, rfl, rfl, rfl, fun _ _ _ h => Cache.entry?_of_invalidate h⟩
      tables := ⟨_, rfl⟩ }
  · refine (Graph.status?_withStatus ..).trans ?_
    rw [if_pos ((hmem a).2 hedge), Graph.status?_unregister, if_neg hedge.ne.symm]
    obtain ⟨d, hd⟩ := Option.isSome_iff_exists.1 hedge.contains_right
    rw [Graph.status?_of_cell? hd]
    rfl
  · refine (Graph.status?_withStatus ..).trans ?_
    rw [if_neg (fun h => hno ((hmem a).1 h)), Graph.status?_unregister, if_neg hne]
  · refine (Namespace.get?_removeAll ..).trans ?_
    simp only [OrderedSet.mem_toList]

theorem removeFromGraph_of_not_live (h : k.graph.contains id = false) :
    k.removeFromGraph id = k := by
  have hnone : k.graph.cell? id = none := by simpa [Graph.contains] using h
  unfold removeFromGraph
  rw [hnone]

/-- Removing a cell that is live or not is at most one step, after which it is not live. -/
theorem removeFromGraph_edits (hk : k.Coherent) (id : CellId) :
    ReflTransGen (Edit S) k (k.removeFromGraph id) ∧
      (k.removeFromGraph id).graph.contains id = false := by
  cases hc : k.graph.cell? id with
  | none =>
    have hout : k.graph.contains id = false := by simp [Graph.contains, hc]
    rw [removeFromGraph_of_not_live hout]
    exact ⟨.refl, hout⟩
  | some c =>
    obtain rfl := Graph.cell?_id hc
    have h := removeFromGraph_removed hk hc
    exact ⟨.single (.removed h), h.not_live⟩

theorem parked_removeFromGraph (hk : k.Coherent) (id : CellId) :
    (k.removeFromGraph id).parked = k.parked := by
  cases hc : k.graph.cell? id with
  | none => rw [removeFromGraph_of_not_live (by simp [Graph.contains, hc])]
  | some c =>
    obtain rfl := Graph.cell?_id hc
    exact (removeFromGraph_removed hk hc).parked

theorem coherent_of_edits (hk : k.Coherent) (h : ReflTransGen (Edit S) k k') : k'.Coherent := by
  induction h with
  | refl => exact hk
  | tail _ hstep ih => exact ih.edit hstep

theorem waitFor_of_edits (hk : WaitFor S k) (h : ReflTransGen (Edit S) k k') :
    WaitFor S k' := by
  induction h with
  | refl => exact hk
  | tail _ hstep ih => exact ih.edit hstep

theorem marker_of_edits (hk : k.Coherent) (h : ReflTransGen (Edit S) k k') :
    k'.graph.privateMarker = k.graph.privateMarker := by
  induction h with
  | refl => rfl
  | tail hchain hstep ih =>
    exact (hstep.marker (coherent_of_edits hk hchain).wellFormed).trans ih

theorem park_edits (hk : k.Coherent) (hspec : S spec) {conflict : Graph.Conflict}
    (hrefused : k.graph.register spec = .error conflict) :
    ReflTransGen (Edit S) k (k.park spec conflict) := by
  obtain ⟨hchain, hout⟩ := removeFromGraph_edits (S := S) hk spec.id
  have hparked : ∀ (t : Table CellId Parked) (p : Parked) a, a ≠ spec.id →
      (t.insert spec.id p).get? a = t.get? a := by
    intro t p a hne
    rw [Table.get?_insert, if_neg hne]
  have hnoted : Noted S (k.removeFromGraph spec.id) (k.park spec conflict) spec.id :=
    { not_live := hout
      graph := rfl
      names := rfl
      config := rfl
      errors := fun a hne => by
        refine (Table.get?_insert ..).trans ?_
        rw [if_neg hne]
      pending := fun a hne => by
        refine OrderedSet.has_remove.trans ?_
        exact and_iff_right hne
      parked := fun a hne => hparked _ _ a hne
      asked := fun p hp => by
        have hget := (Table.get?_insert ..).symm.trans hp
        rw [if_pos rfl] at hget
        obtain rfl := Option.some.inj hget
        exact ⟨rfl, hspec⟩
      explained := fun p hp => by
        have hget := (Table.get?_insert ..).symm.trans hp
        rw [if_pos rfl] at hget
        obtain rfl := Option.some.inj hget
        refine .inr ⟨conflictError conflict, (Table.get?_insert ..).trans (if_pos rfl), ?_⟩
        exact ⟨k.graph, conflict, hk.wellFormed, (marker_of_edits hk hchain).symm, hrefused, rfl⟩
      session := rfl }
  exact hchain.tail (.noted hnoted)

theorem accept_registered (dropped : List String) (hk : k.Coherent) (hspec : S spec)
    (haccept : k.graph.register spec = .ok g)
    (hdropped : ∀ name, name ∈ dropped ↔ spec.defs.has name = false ∧
      ∃ c, k.graph.cell? spec.id = some c ∧ c.defs.has name = true) :
    Registered S k
      (let k := (k.accept spec.id g).unbindAll dropped
      (k.graph.readersOf dropped).toList.foldl markDangling k) spec g dropped := by
  rw [unbindAll_eq]
  obtain ⟨published, heq⟩ := markAll_eq
    ({ k.accept spec.id g with
      names := dropped.foldl Namespace.remove k.names
      session := { k.session with
        elements := dropped.foldl ElementRegistry.unbind k.session.elements } } : Kernel κ σ)
    (g.readersOf dropped).toList
  refine Eq.mpr (congrArg (fun k' => Registered S k k' spec g dropped) heq) ?_
  have hg := hk.wellFormed.register haccept
  refine
    { asked := hspec
      accepted := haccept
      mem_dropped := hdropped
      shape := Graph.shape_withStatus ..
      status_reader := fun a ha => ?_
      status_other := fun a ha => ?_
      names := fun name => Namespace.get?_removeAll ..
      config := rfl
      errors := fun a => Table.get?_erase ..
      pending := fun a => OrderedSet.has_add
      forced := rfl
      parked := fun a => Table.get?_erase ..
      session := ⟨rfl, rfl, rfl, rfl, fun _ _ _ h => h⟩
      tables := rfl }
  · refine (Graph.status?_withStatus ..).trans ?_
    rw [if_pos (OrderedSet.mem_toList.2 ha)]
    obtain ⟨-, -, -, d, hd, -⟩ := (Graph.has_readersOf hg).1 ha
    exact congrArg (Option.map fun _ => CellStatus.stale) (Graph.status?_of_cell? hd)
  · refine (Graph.status?_withStatus ..).trans ?_
    rw [if_neg (fun h => by rw [OrderedSet.mem_toList, ha] at h; cases h)]
    rfl

/-- An accepted registration is one step, after which the cell is live. -/
theorem registerOne_registered (hk : k.Coherent) (hspec : S spec)
    (hchanged : k.isUnchanged spec = false) (haccept : k.graph.register spec = .ok g) :
    ∃ dropped, Registered S k (k.registerOne spec) spec g dropped := by
  have h := accept_registered
    ((((k.graph.cell? spec.id).map Cell.defs).getD .empty).diff spec.defs).toList hk hspec haccept
  unfold registerOne
  rw [hchanged, if_neg Bool.false_ne_true, haccept]
  refine ⟨_, h fun name => ?_⟩
  rw [OrderedSet.mem_toList, OrderedSet.has_diff]
  cases hc : k.graph.cell? spec.id with
  | none => simp
  | some c => simp [and_comm]

theorem registerOne_edits (hk : k.Coherent) (hspec : S spec) :
    ReflTransGen (Edit S) k (k.registerOne spec) := by
  cases hchanged : k.isUnchanged spec with
  | true =>
    unfold registerOne
    rw [if_pos hchanged]
  | false =>
    cases haccept : k.graph.register spec with
    | error conflict =>
      unfold registerOne
      rw [hchanged, if_neg Bool.false_ne_true, haccept]
      exact park_edits hk hspec haccept
    | ok g =>
      obtain ⟨dropped, h⟩ := registerOne_registered hk hspec hchanged haccept
      exact .single (.registered h)

/-- A parked cell that is tried again is put into the graph, or one of its names is still taken. -/
theorem retry_cases (hk : k.Coherent) (hwait : WaitFor S k) {p : Parked}
    (hp : k.parked.get? id = some p) :
    (∃ g, Registered S k (k.retry id) p.spec g []) ∨
      k.retry id = k ∧ ∃ conflict, k.graph.register p.spec = .error conflict := by
  obtain ⟨rfl, hspec⟩ := hwait id p hp
  cases haccept : k.graph.register p.spec with
  | error conflict =>
    have hretry : k.retry p.spec.id = k := by simp only [retry, hp, haccept]
    exact .inr ⟨hretry, conflict, rfl⟩
  | ok g =>
    have hretry : k.retry p.spec.id = k.accept p.spec.id g := by simp only [retry, hp, haccept]
    -- a parked cell is not live, so that no definition is dropped
    have hout := hk.parked_not_live p.spec.id (by simp [Table.contains, hp])
    have hnone : k.graph.cell? p.spec.id = none := by simpa [Graph.contains] using hout
    rw [hretry]
    exact .inl ⟨g, accept_registered [] hk hspec haccept fun name => by simp [hnone]⟩

theorem retry_edits (hk : k.Coherent) (hwait : WaitFor S k) (id : CellId) :
    ReflTransGen (Edit S) k (k.retry id) := by
  cases hp : k.parked.get? id with
  | none =>
    unfold retry
    rw [hp]
  | some p =>
    rcases retry_cases hk hwait hp with ⟨g, h⟩ | ⟨h, -⟩
    · exact .single (.registered h)
    · rw [h]

/-- A chain for each element of a list makes one chain. -/
theorem foldl_edits {α : Type} {f : Kernel κ σ → α → Kernel κ σ} {items : List α}
    (hf : ∀ k : Kernel κ σ, k.Coherent → WaitFor S k → ∀ i ∈ items,
      ReflTransGen (Edit S) k (f k i))
    (hk : k.Coherent) (hwait : WaitFor S k) : ReflTransGen (Edit S) k (items.foldl f k) := by
  induction items generalizing k with
  | nil => exact .refl
  | cons first rest ih =>
    have hfirst := hf k hk hwait first (List.mem_cons_self ..)
    refine hfirst.trans (ih (fun k hk hwait i hi => ?_) (coherent_of_edits hk hfirst)
      (waitFor_of_edits hwait hfirst))
    exact hf k hk hwait i (List.mem_cons_of_mem _ hi)

theorem retryParked_edits (hk : k.Coherent) (hwait : WaitFor S k) :
    ReflTransGen (Edit S) k k.retryParked :=
  foldl_edits (fun _ hk hwait id _ => retry_edits hk hwait id) hk hwait

/-- Registering cells is a chain of steps. -/
theorem registerCells_edits (hk : k.Coherent) (hwait : WaitFor S k) {specs : List CellSpec}
    (hspecs : ∀ spec ∈ specs, S spec) : ReflTransGen (Edit S) k (k.registerCells specs) := by
  have hregister : ReflTransGen (Edit S) k (specs.foldl registerOne k) :=
    foldl_edits (fun _ hk _ spec hspec => registerOne_edits hk (hspecs spec hspec)) hk hwait
  exact hregister.trans
    (retryParked_edits (coherent_of_edits hk hregister) (waitFor_of_edits hwait hregister))

/-- A kernel without a cell, live or parked, before the parked cells are tried again. -/
def without (k : Kernel κ σ) (id : CellId) : Kernel κ σ :=
  let k := if k.parked.contains id then { k with parked := k.parked.erase id }
    else k.removeFromGraph id
  ({ k with errors := k.errors.erase id }.unschedule id).publish (.deleted id)

theorem deleteCell_eq (h : k.deleteCell id = .ok k') : k' = (k.without id).retryParked := by
  unfold deleteCell at h
  split at h
  · cases h
  · exact (Except.ok.inj h).symm

theorem without_edits (hk : k.Coherent) (id : CellId) :
    ReflTransGen (Edit S) k (k.without id) := by
  -- first the cell goes, and then its books
  have hgone : ∃ k₁ : Kernel κ σ, ReflTransGen (Edit S) k k₁ ∧ k₁.graph.contains id = false ∧
      k₁.parked.get? id = none ∧ (if k.parked.contains id then { k with parked := k.parked.erase id }
        else k.removeFromGraph id) = k₁ := by
    refine ⟨_, ?_, ?_, ?_, rfl⟩
    · split
      · rename_i hparked
        have hnoted : Noted S k { k with parked := k.parked.erase id } id :=
          { not_live := hk.parked_not_live id hparked
            graph := rfl
            names := rfl
            config := rfl
            errors := fun _ _ => rfl
            pending := fun _ _ => Iff.rfl
            parked := fun a hne => (Table.get?_erase ..).trans (if_neg hne)
            asked := fun p hp => by
              rw [Table.get?_erase, if_pos rfl] at hp
              cases hp
            explained := fun p hp => by
              rw [Table.get?_erase, if_pos rfl] at hp
              cases hp
            session := rfl }
        exact .single (.noted hnoted)
      · exact (removeFromGraph_edits hk id).1
    · split
      · rename_i hparked
        exact hk.parked_not_live id hparked
      · exact (removeFromGraph_edits (S := S) hk id).2
    · split
      · exact (Table.get?_erase ..).trans (if_pos rfl)
      · rename_i hparked
        rw [parked_removeFromGraph hk]
        exact Option.not_isSome_iff_eq_none.1 hparked
  obtain ⟨k₁, hchain, hout, hnone, heq⟩ := hgone
  unfold without
  rw [heq]
  -- the cell is not live any more, and so its books may be closed
  have hbooks : Noted S k₁ (({ k₁ with errors := k₁.errors.erase id }.unschedule id).publish
      (.deleted id)) id :=
    { not_live := hout
      graph := rfl
      names := rfl
      config := rfl
      errors := fun a hne => (Table.get?_erase ..).trans (if_neg hne)
      pending := fun a hne => OrderedSet.has_remove.trans (and_iff_right hne)
      parked := fun _ _ => rfl
      asked := fun p hp => nomatch hnone.symm.trans hp
      explained := fun p hp => nomatch hnone.symm.trans hp
      session := rfl }
  exact hchain.tail (.noted hbooks)

/-- Deleting a cell is a chain of steps. -/
theorem deleteCell_edits (hk : k.Coherent) (hwait : WaitFor S k)
    (h : k.deleteCell id = .ok k') : ReflTransGen (Edit S) k k' := by
  have hchain : ReflTransGen (Edit S) k (k.without id) := without_edits hk id
  rw [deleteCell_eq h]
  exact hchain.trans
    (retryParked_edits (coherent_of_edits hk hchain) (waitFor_of_edits hwait hchain))

end Kernel

end Notebook
