/-
  Notebook.Proofs.Kernel.Privacy — whose a name is, and who touches its binding.

  All cells share one table of names, private ones included.  What keeps the names of one cell from
  another is only that a cell touches the names that it defines and no others: when it runs, when it
  fails, when it is edited and when it is deleted.  So a name is safe with a cell as long as no other
  live cell defines it.  For public names registration sees to that; two cells may define the same
  private name, and then each of them binds it and unbinds it for the other.

  Main results:
    * `visit_names` / `runOnce_names` / `registerCells_names` / `deleteCell_names` — nobody touches
      the binding of a name but the cells that define it,
    * `Supplied.owned` — a bound name is defined by a live cell, or bound as it was from outside,
    * `Supplied.privacy` — what a cell reads of a name, and who changes it, in every kernel that
      comes about.
-/
import Notebook.Digest.Sha256
import Notebook.Proofs.Kernel.Chronicle
import Notebook.Proofs.Kernel.Containment

namespace Notebook

open Relation

namespace Kernel

variable {κ σ : Type} {k k' : Kernel κ σ} {id d : CellId} {name : String} {S : CellSpec → Prop}
  {given : Table String Binding}

/-! ## §1. Definers. -/

/-- The cell is live and defines the name, be it public or private. -/
def Defines (k : Kernel κ σ) (id : CellId) (name : String) : Prop :=
  ∃ c, k.graph.cell? id = some c ∧ c.defs.has name = true

theorem Defines.congr (hdef : k.Defines id name) (hshape : k'.graph.shape = k.graph.shape) :
    k'.Defines id name := by
  obtain ⟨c, hc, hdef⟩ := hdef
  obtain ⟨c', hc', hs⟩ := Graph.cell?_congr hshape.symm hc
  exact ⟨c', hc', (Cell.spec_eq_iff.1 (Cell.spec_of_shape hs)).2.2.1 ▸ hdef⟩

/-- A cell that is removed takes the bindings of its names with it, and no others. -/
theorem removeFromGraph_names (hk : k.Coherent) (id : CellId) (name : String) :
    (k.Defines id name → (k.removeFromGraph id).names.get? name = none) ∧
      (¬ k.Defines id name → (k.removeFromGraph id).names.get? name = k.names.get? name) := by
  cases hc : k.graph.cell? id with
  | none =>
    have hout : k.graph.contains id = false := by simp [Graph.contains, hc]
    rw [removeFromGraph_of_not_live hout]
    refine ⟨fun hdef => ?_, fun _ => rfl⟩
    obtain ⟨c, hc', -⟩ := hdef
    rw [hc] at hc'
    cases hc'
  | some c =>
    obtain rfl := Graph.cell?_id hc
    rw [(removeFromGraph_removed hk hc).names]
    constructor
    · rintro ⟨c', hc', hdef⟩
      obtain rfl := Option.some.inj (hc.symm.trans hc')
      exact if_pos hdef
    · intro hno
      exact if_neg fun hdef => hno ⟨c, hc, hdef⟩

/-- Trying parked cells again touches no binding. -/
theorem retryParked_names (k : Kernel κ σ) : k.retryParked.names = k.names := by
  have hfold : ∀ (ids : List CellId) (k : Kernel κ σ), (ids.foldl retry k).names = k.names := by
    intro ids
    induction ids with
    | nil => exact fun _ => rfl
    | cons first rest ih =>
      intro k
      rw [List.foldl_cons, ih]
      unfold retry
      split
      · rfl
      · split <;> rfl
  exact hfold _ k

/-- Registering a cell touches no name but those that its old version defined. -/
theorem registerCells_names (hk : k.Coherent) {spec : CellSpec} (hno : ¬ k.Defines spec.id name) :
    (k.registerCells [spec]).names.get? name = k.names.get? name := by
  show (k.registerOne spec).retryParked.names.get? name = _
  rw [retryParked_names]
  cases hchanged : k.isUnchanged spec with
  | true =>
    unfold registerOne
    rw [if_pos hchanged]
  | false =>
    cases haccept : k.graph.register spec with
    | error conflict =>
      unfold registerOne
      rw [hchanged, if_neg Bool.false_ne_true, haccept]
      exact (removeFromGraph_names hk spec.id name).2 hno
    | ok g =>
      obtain ⟨dropped, h⟩ := registerOne_registered (S := fun _ => True) hk trivial hchanged haccept
      rw [h.names, if_neg fun hin => hno ((h.mem_dropped name).1 hin).2]

/-- Deleting a cell unbinds the names that it defines, and no others. -/
theorem deleteCell_names (hk : k.Coherent) (h : k.deleteCell id = .ok k') (name : String) :
    (k.Defines id name → k'.names.get? name = none) ∧
      (¬ k.Defines id name → k'.names.get? name = k.names.get? name) := by
  rw [deleteCell_eq h, retryParked_names]
  cases hparked : k.parked.contains id with
  | true =>
    have hsame : (k.without id).names = k.names := by
      unfold without
      rw [if_pos hparked]
      rfl
    rw [hsame]
    refine ⟨fun hdef => ?_, fun _ => rfl⟩
    obtain ⟨c, hc, -⟩ := hdef
    have hout := hk.parked_not_live id hparked
    rw [Graph.contains_of_cell? hc] at hout
    cases hout
  | false =>
    have hsame : (k.without id).names = (k.removeFromGraph id).names := by
      unfold without
      rw [hparked, if_neg Bool.false_ne_true]
      rfl
    rw [hsame]
    exact removeFromGraph_names hk id name

/-! ## §2. Rounds. -/

variable [HashFunction] {x y : Executor κ σ} {forced roots : OrderedSet CellId} {r : Round κ σ}

/-- Coming to a cell touches no name but those that it defines, whatever becomes of the cell. -/
theorem visit_names (x : Executor κ σ) (forced : OrderedSet CellId) {c : Cell}
    (hc : r.kernel.graph.cell? c.id = some c) (hno : ¬ r.kernel.Defines c.id name) :
    (r.visit x forced c.id).kernel.names.get? name = r.kernel.names.get? name := by
  cases hrun : r.kernel.session.aborted with
  | true =>
    rw [kernel_visit_aborted x forced c.id hrun]
    rfl
  | false =>
    obtain ⟨now, e, outputs, hsettled, -⟩ := Round.visit_settled x forced hc hrun
    rw [hsettled.names, if_neg fun hdef => hno ⟨c, hc, hdef⟩]

theorem visits_names (x : Executor κ σ) (forced : OrderedSet CellId) {ids : List CellId}
    (hlive : ∀ id ∈ ids, r.kernel.graph.contains id = true)
    (hno : ∀ id ∈ ids, ¬ r.kernel.Defines id name) :
    (ids.foldl (Round.visit x forced) r).kernel.names.get? name = r.kernel.names.get? name := by
  induction ids generalizing r with
  | nil => rfl
  | cons first rest ih =>
    obtain ⟨c, hc⟩ := Option.isSome_iff_exists.1 (hlive first (List.mem_cons_self ..))
    obtain rfl := Graph.cell?_id hc
    have hshape := (visit_status x forced hc).1.shape
    rw [List.foldl_cons, ih, visit_names x forced hc (hno c.id (List.mem_cons_self ..))]
    · intro id hid
      rw [Graph.contains_congr hshape]
      exact hlive id (List.mem_cons_of_mem _ hid)
    · intro id hid hdef
      exact hno id (List.mem_cons_of_mem _ hid) (hdef.congr hshape.symm)

omit [HashFunction] in
/-- Blocking cells touches no name but those that they define. -/
theorem readied_names (hg : k.graph.WellFormed)
    (hno : ∀ id ∈ (k.graph.plan roots).blocked.map (·.1), ¬ k.Defines id name) :
    (k.readied roots {}).kernel.names.get? name = k.names.get? name :=
  (underway_readied hg roots).outside_names name fun c hc hdone =>
    Bool.eq_false_iff.2 fun hdef => hno c.id hdone ⟨c, hc, hdef⟩

/-- A round leaves a name alone that no cell of its run-set defines. -/
theorem runOnce_names (hg : k.graph.WellFormed) (x : Executor κ σ) (report : RunReport)
    (hno : ∀ id ∈ k.graph.descendants roots, ¬ k.Defines id name) :
    (k.runOnce x roots forced report).2.names.get? name = k.names.get? name := by
  have hbegin := underway_readied hg roots
  have hperm := plan_perm hg roots
  rw [(runOnce_asked hg x roots forced report).names]
  refine (visits_names x forced (fun _ => hbegin.live_now) fun id hid hdef => ?_).trans
    (readied_names hg fun id hid => hno id (hperm.mem_iff.1 (List.mem_append_left _ hid)))
  exact hno id (hperm.mem_iff.1 (List.mem_append_right _ hid)) (hdef.congr hbegin.shape.symm)

/-! ## §3. Bound names have an owner. -/

/-- The kernels that come about when cells are run by `x`, each with the bindings that were given
from outside at the last initialization, if there was none since the last reset. -/
inductive Supplied (x : Executor κ σ) : Table String Binding → Kernel κ σ → Prop
  | start {config : Config} {disk : Disk} {clock : Nat} {own : σ} {k : Kernel κ σ} :
    Kernel.start config disk clock own = .ok k → Supplied x .empty k
  | init {given : Table String Binding} {k : Kernel κ σ} (initial : List (String × Binding)) :
    Supplied x given k → Supplied x (.ofList initial) (k.init initial)
  | reset {given : Table String Binding} {k : Kernel κ σ} :
    Supplied x given k → Supplied x .empty k.reset
  | apply {given : Table String Binding} {k : Kernel κ σ} (event : Event) :
    Supplied x given k → Supplied x given (k.apply x event).2
  | scheduleWrites {given : Table String Binding} {k : Kernel κ σ} :
    Supplied x given k → Supplied x given k.scheduleWrites
  | clearPending {given : Table String Binding} {k : Kernel κ σ} :
    Supplied x given k → Supplied x given k.clearPending
  | round {given : Table String Binding} {k : Kernel κ σ} (roots forced : OrderedSet CellId)
    (report : RunReport) :
    Supplied x given k → Supplied x given (k.runOnce x roots forced report).2
  /-- Whoever hosts the kernel acts on the session. -/
  | host {given : Table String Binding} {k : Kernel κ σ} (s : Session κ σ) :
    Supplied x given k → Supplied x given { k with session := s }

theorem Supplied.reachable (hk : Supplied x given k) : Reachable x k := by
  induction hk with
  | start hstart => exact .start hstart
  | init initial _ ih => exact ih.init initial
  | reset _ ih => exact ih.reset
  | apply event _ ih => exact ih.apply event
  | scheduleWrites _ ih => exact ih.scheduleWrites
  | clearPending _ ih => exact ih.clearPending
  | round roots forced report _ ih => exact ih.round roots forced report
  | host s _ ih => exact ih.host s

/-- Every kernel that is reached was given something from outside, if only nothing. -/
theorem Reachable.supplied (hk : Reachable x k) : ∃ given, Supplied x given k := by
  induction hk with
  | start hstart => exact ⟨_, .start hstart⟩
  | init initial _ ih => exact ⟨_, ih.choose_spec.init initial⟩
  | reset _ ih => exact ⟨_, ih.choose_spec.reset⟩
  | apply event _ ih => exact ⟨_, ih.choose_spec.apply event⟩
  | scheduleWrites _ ih => exact ⟨_, ih.choose_spec.scheduleWrites⟩
  | clearPending _ ih => exact ⟨_, ih.choose_spec.clearPending⟩
  | round roots forced report _ ih => exact ⟨_, ih.choose_spec.round roots forced report⟩
  | host s _ ih => exact ⟨_, ih.choose_spec.host s⟩

omit [HashFunction] in
/-- A bound name is defined by a live cell, or it is bound as it was given from outside. -/
def Owned (given : Table String Binding) (k : Kernel κ σ) : Prop :=
  ∀ name b, k.names.get? name = some b → (∃ id, k.Defines id name) ∨ given.get? name = some b

omit [HashFunction] in
theorem Owned.edit (ho : Owned given k) (hk : k.Coherent) (h : Edit S k k') : Owned given k' := by
  intro name b hb
  refine (ho name b (h.names_subset hb)).imp_left fun ⟨id, c, hc, hdef⟩ => ?_
  cases h with
  | @removed gone h =>
    -- a name of the removed cell is not bound any more
    have hne : id ≠ gone.id := by
      rintro rfl
      obtain rfl := Option.some.inj (h.live.symm.trans hc)
      rw [h.names, if_pos hdef] at hb
      cases hb
    have hkept : (k.graph.unregister gone.id).cell? id = some c := by
      rw [Graph.cell?_unregister, if_neg hne, hc]
    obtain ⟨c', hc', hs⟩ := Graph.cell?_congr h.shape.symm hkept
    exact ⟨id, c', hc', (Cell.spec_eq_iff.1 (Cell.spec_of_shape hs)).2.2.1 ▸ hdef⟩
  | noted h => exact ⟨id, c, h.graph.symm ▸ hc, hdef⟩
  | @registered spec g dropped h =>
    have hlive : ∃ c', g.cell? id = some c' ∧ c'.defs.has name = true := by
      rw [Graph.cell?_register hk.wellFormed h.accepted]
      by_cases hid : id = spec.id
      · -- the registered cell defines the name still, which would be dropped otherwise
        subst hid
        refine ⟨_, if_pos rfl, ?_⟩
        by_contra hnot
        have hdropped := (h.mem_dropped name).2 ⟨Bool.eq_false_of_not_eq_true hnot, c, hc, hdef⟩
        rw [h.names, if_pos hdropped] at hb
        cases hb
      · exact ⟨c, (if_neg hid).trans hc, hdef⟩
    obtain ⟨c₁, hc₁, hdef₁⟩ := hlive
    obtain ⟨c', hc', hs⟩ := Graph.cell?_congr h.shape.symm hc₁
    exact ⟨id, c', hc', (Cell.spec_eq_iff.1 (Cell.spec_of_shape hs)).2.2.1 ▸ hdef₁⟩

omit [HashFunction] in
theorem Owned.edits (ho : Owned given k) (hk : k.Coherent)
    (hchain : ReflTransGen (Edit S) k k') : Owned given k' := by
  induction hchain with
  | refl => exact ho
  | tail hchain hstep ih => exact ih.edit (coherent_of_edits hk hchain) hstep

omit [HashFunction] in
theorem Owned.asked (ho : Owned given k) (ha : Asked k k') : Owned given k' := by
  intro name b hb
  rw [ha.names] at hb
  exact (ho name b hb).imp_left fun ⟨id, hdef⟩ =>
    ⟨id, hdef.congr (congrArg Graph.shape ha.graph)⟩

theorem Supplied.owned (hk : Supplied x given k) : Owned given k := by
  induction hk with
  | start hstart =>
    obtain ⟨-, cache, heq⟩ := start_eq hstart
    intro name b hb
    rw [heq] at hb
    cases hb
  | init initial _ _ => exact fun name b hb => .inr hb
  | @reset given k _ _ =>
    intro name b hb
    obtain ⟨published, heq⟩ := reset_eq k
    rw [heq] at hb
    cases hb
  | apply event hk ih =>
    have horder := hk.reachable.inOrder
    rcases apply_cases x event horder.toCoherent horder.waitFor with hedits | hasked
    · exact ih.edits horder.toCoherent hedits
    · exact ih.asked hasked
  | scheduleWrites hk ih => exact ih.asked (.scheduleWrites hk.reachable.inOrder.wellFormed)
  | clearPending _ ih => exact ih
  | @round given k roots forced report hk ih =>
    intro name b hb
    have hg := hk.reachable.inOrder.wellFormed
    have hshape : (k.runOnce x roots forced report).2.graph.shape = k.graph.shape := by
      rw [(runOnce_asked hg x roots forced report).graph]
      exact (visitedAll_status hg x roots forced).1.shape
    -- only a definer could have bound the name in the round
    by_cases hdef : ∃ id, k.Defines id name
    · obtain ⟨id, hdef⟩ := hdef
      exact .inl ⟨id, hdef.congr hshape⟩
    · rw [runOnce_names hg x report fun id _ hid => hdef ⟨id, hid⟩] at hb
      exact .inr ((ih name b hb).resolve_left hdef)
  | host s _ ih => exact ih

/-! ## §4. Requests. -/

theorem Round.request?_eq {q : Request} (h : r.request? forced id = some q) :
    ∃ c, c.id = id ∧ r.kernel.graph.cell? c.id = some c ∧ q = r.kernel.requestOf c := by
  unfold request? at h
  split at h
  · cases h
  · split at h
    · cases h
    · rename_i c hc
      split at h
      · cases h
      · obtain rfl := Graph.cell?_id hc
        exact ⟨c, rfl, hc, (Option.some.inj h).symm⟩

/-- A request is made when the round comes to some cell. -/
theorem Round.mem_requests {q : Request × Kernel κ σ} {ids : List CellId}
    (hq : q ∈ requests x forced r ids) : ∃ before id after, ids = before ++ id :: after ∧
      q.2 = (before.foldl (visit x forced) r).kernel ∧
      (before.foldl (visit x forced) r).request? forced id = some q.1 := by
  induction ids generalizing r with
  | nil => exact absurd hq List.not_mem_nil
  | cons first rest ih =>
    rcases List.mem_append.1 hq with hq | hq
    · obtain ⟨q', hask, rfl⟩ : ∃ q', r.request? forced first = some q' ∧ (q', r.kernel) = q := by
        simpa using hq
      exact ⟨[], first, rest, rfl, rfl, hask⟩
    · obtain ⟨before, id, after, rfl, hkernel, hask⟩ := ih hq
      exact ⟨first :: before, id, after, rfl, hkernel, hask⟩

/-- What a cell is handed under a name that no other live cell defines was given from outside. -/
theorem Supplied.inputs (hk : Supplied x given k) {q : Request × Kernel κ σ}
    (hq : q ∈ k.requests y roots forced) {b : Binding} (hb : q.1.inputs.get? name = some b)
    (halone : ∀ id, id ≠ q.1.cell → ¬ k.Defines id name) : given.get? name = some b := by
  have hg := hk.reachable.inOrder.wellFormed
  have hbegin := underway_readied hg roots
  have hperm := plan_perm hg roots
  obtain ⟨before, id, after, horder, hkernel, hask⟩ := Round.mem_requests hq
  have hlive : ∀ a ∈ before, (k.readied roots {}).kernel.graph.contains a = true :=
    fun a ha => hbegin.live_now (horder ▸ List.mem_append_left _ ha)
  have hshape : (before.foldl (Round.visit y forced) (k.readied roots {})).kernel.graph.shape =
      k.graph.shape := (visits_status y forced before hlive).1.shape.trans hbegin.shape
  obtain ⟨c, rfl, hc, hq⟩ := Round.request?_eq hask
  rw [hq] at hb halone
  obtain ⟨hread, hb⟩ := Option.ite_none_right_eq_some.1 ((get?_inputs _ c name).symm.trans hb)
  have hdef := (Bool.and_eq_true_iff.1 hread).2
  -- nobody defines the name, the cell itself included
  have hnone : ∀ a, ¬ k.Defines a name := by
    intro a ha
    by_cases hne : a = c.id
    · obtain ⟨c', hc', hdef'⟩ := ha.congr hshape
      rw [hne, hc] at hc'
      obtain rfl := Option.some.inj hc'
      simp [hdef'] at hdef
    · exact halone a hne ha
  rw [visits_names y forced hlive fun a _ ha => hnone a (ha.congr hbegin.shape.symm),
    readied_names hg fun a _ => hnone a] at hb
  exact (hk.owned name b hb).resolve_left fun ⟨a, ha⟩ => hnone a ha

/-! ## §5. Privacy. -/

/-- The binding of a name is safe with the cell `d`: no other cell changes it by being run, edited
or deleted, whether it succeeds or fails. -/
structure SafeWith (y : Executor κ σ) (k : Kernel κ σ) (d : CellId) (name : String) : Prop where
  /-- Within a round, when it comes to another cell. -/
  visit : ∀ (roots forced : OrderedSet CellId) (before : List CellId) (id : CellId)
    (after : List CellId), (k.graph.plan roots).order = before ++ id :: after → id ≠ d →
    ((before.foldl (Round.visit y forced) (k.readied roots {})).visit y forced id).kernel.names.get?
      name = (before.foldl (Round.visit y forced) (k.readied roots {})).kernel.names.get? name
  /-- Over a whole round of other cells. -/
  round : ∀ (roots forced : OrderedSet CellId) (report : RunReport),
    d ∉ k.graph.descendants roots →
    (k.runOnce y roots forced report).2.names.get? name = k.names.get? name
  register : ∀ spec : CellSpec, spec.id ≠ d →
    (k.registerCells [spec]).names.get? name = k.names.get? name
  delete : ∀ (id : CellId) (k' : Kernel κ σ), id ≠ d → k.deleteCell id = .ok k' →
    k'.names.get? name = k.names.get? name

/-- The binding of a name is safe with a cell when no other live cell defines the name. -/
theorem safeWith_of_alone (hk : InOrder S k) (y : Executor κ σ)
    (halone : ∀ id, id ≠ d → ¬ k.Defines id name) : k.SafeWith y d name where
  visit := by
    intro roots forced before id after horder hne
    have hbegin := underway_readied hk.wellFormed roots
    have hlive : ∀ a ∈ before ++ id :: after,
        (k.readied roots {}).kernel.graph.contains a = true :=
      fun a ha => hbegin.live_now (horder ▸ ha)
    have hshape := (visits_status y forced before fun a ha =>
      hlive a (List.mem_append_left _ ha)).1.shape
    obtain ⟨c, hc⟩ : ∃ c, (before.foldl (Round.visit y forced)
        (k.readied roots {})).kernel.graph.cell? id = some c := by
      refine Option.isSome_iff_exists.1 ?_
      exact (Graph.contains_congr hshape id).trans (hlive id (by simp))
    obtain rfl := Graph.cell?_id hc
    refine visit_names y forced hc fun hdef => halone c.id hne ?_
    exact hdef.congr (hshape.trans hbegin.shape).symm
  round := by
    intro roots forced report hout
    refine runOnce_names hk.wellFormed y report fun id hid => halone id ?_
    rintro rfl
    exact hout hid
  register := fun spec hne => registerCells_names hk.toCoherent (halone spec.id hne)
  delete := fun id k' hne h => (deleteCell_names hk.toCoherent h name).2 (halone id hne)

/-- **Whose a name is**, private or not, in every kernel that comes about and for every executor.
A cell is handed a binding of a name that no other live cell defines only as it was given from
outside.
The binding of a name is safe with a live cell that defines it, as long as no other live cell does.
And it is lost as soon as any cell that defines it is deleted. -/
theorem Supplied.privacy (hk : Supplied x given k) (y : Executor κ σ) (name : String) :
    (∀ (roots forced : OrderedSet CellId), ∀ q ∈ k.requests y roots forced, ∀ b,
      q.1.inputs.get? name = some b → (∀ id, id ≠ q.1.cell → ¬ k.Defines id name) →
      given.get? name = some b) ∧
    (∀ d, k.Defines d name → (∀ id, id ≠ d → ¬ k.Defines id name) → k.SafeWith y d name) ∧
    (∀ id, k.Defines id name → ∃ k', k.deleteCell id = .ok k' ∧ k'.names.get? name = none) := by
  have horder := hk.reachable.inOrder
  refine ⟨fun roots forced q hq b hb halone => hk.inputs hq hb halone,
    fun d _ halone => safeWith_of_alone horder y halone, fun id hid => ?_⟩
  cases hdelete : k.deleteCell id with
  | ok k' => exact ⟨k', rfl, (deleteCell_names horder.toCoherent hdelete name).1 hid⟩
  | error e =>
    obtain ⟨c, hc, -⟩ := hid
    unfold deleteCell at hdelete
    simp [Graph.contains_of_cell? hc] at hdelete

end Kernel

/-! ## §6. Cells that share a private name. -/

/-- Binds `_a` to one, and refuses the code `fail`. -/
def Executor.tenant : Executor Unit Unit where
  execute q := .done (if q.code = "fail" then .error "refused"
    else .ok { bindings := .ofList [("_a", .value (.int 1))] })
  observe _ _ := .done (.ok ())

/-- A kernel in which the given cells are to be run. -/
def Kernel.housing (specs : List CellSpec) : Kernel Unit Unit :=
  ({ config := { cellCache := false }, session := { own := () } } : Kernel Unit Unit).registerCells
    specs

theorem Kernel.housing_supplied (specs : List CellSpec) :
    let _ := Sha256.hashFunction
    Supplied Executor.tenant .empty (housing specs) := by
  intro _
  have hstart : Kernel.start { cellCache := false } {} 0 () =
      .ok ({ config := { cellCache := false }, session := { own := () } } : Kernel Unit Unit) := rfl
  exact .apply (.register specs) (.start hstart)

/-- A cell that binds a private name, and one that has nothing to do with it, after both have run. -/
def Kernel.neighbours [HashFunction] : Kernel Unit Unit :=
  let k := housing
    [⟨⟨0⟩, "_a = 1", .ofList ["_a"], .empty⟩, ⟨⟨1⟩, "y = 2", .ofList ["y"], .empty⟩]
  (k.runOnce .tenant k.pending k.forced {}).2

/-- The one keeps its name when the other is deleted. -/
theorem Kernel.neighbours_private :
    let _ := Sha256.hashFunction
    Supplied Executor.tenant .empty neighbours ∧ neighbours.Defines ⟨0⟩ "_a" ∧
      (∀ id, id ≠ ⟨0⟩ → ¬ neighbours.Defines id "_a") ∧
      ∃ k', neighbours.deleteCell ⟨1⟩ = .ok k' ∧
        k'.names.get? "_a" = some (.value (.int 1)) := by
  intro _
  have hsupplied : Supplied Executor.tenant .empty neighbours := (housing_supplied _).round _ _ {}
  have hall : (fun k : Kernel Unit Unit => ((k.graph.cell? ⟨0⟩).map fun c => c.defs.has "_a",
      k.graph.cells.all fun c => c.id = ⟨0⟩ || !c.defs.has "_a", k.names.get? "_a",
      (k.deleteCell ⟨1⟩).toOption.isSome)) neighbours =
      (some true, true, some (.value (.int 1)), true) := by cbv
  simp only [Prod.mk.injEq] at hall
  obtain ⟨hdef, halone, hbound, hdelete⟩ := hall
  have hdef : neighbours.Defines ⟨0⟩ "_a" := Option.map_eq_some_iff.1 hdef
  have halone : ∀ id, id ≠ ⟨0⟩ → ¬ neighbours.Defines id "_a" := by
    rintro id hne ⟨c, hc, hcdef⟩
    have := List.all_eq_true.1 halone c (Graph.cell?_mem hc)
    rw [Graph.cell?_id hc] at this
    simp [hne, hcdef] at this
  refine ⟨hsupplied, hdef, halone, ?_⟩
  cases hdeleted : neighbours.deleteCell ⟨1⟩ with
  | ok k' =>
    have hsafe := (hsupplied.privacy .tenant "_a").2.1 ⟨0⟩ hdef halone
    exact ⟨k', rfl, (hsafe.delete ⟨1⟩ k' (by simp) hdeleted).trans hbound⟩
  | error e =>
    rw [hdeleted] at hdelete
    cases hdelete

/-- A cell that binds a private name, one that reads it, and one that defines it too and fails. -/
def Kernel.tenants : Kernel Unit Unit :=
  housing [⟨⟨0⟩, "_a = 1", .ofList ["_a"], .empty⟩, ⟨⟨1⟩, "y = _a", .ofList ["y"], .ofList ["_a"]⟩,
    ⟨⟨2⟩, "fail", .ofList ["_a"], .empty⟩]

/-- Two cells can share a private name: what one has bound the other is handed, and when the other
one fails it is gone. -/
theorem Kernel.tenants_share_private_name :
    let _ := Sha256.hashFunction
    ¬ (∀ (given : Table String Binding) (k : Kernel Unit Unit), Supplied .tenant given k →
      ∀ (roots forced : OrderedSet CellId), ∀ q ∈ k.requests .tenant roots forced, ∀ name b,
        k.graph.isPrivate name = true → q.1.inputs.get? name = some b →
        given.get? name = some b) ∧
    ¬ (∀ (given : Table String Binding) (k : Kernel Unit Unit), Supplied .tenant given k →
      ∀ name, k.graph.isPrivate name = true → ∀ d, k.Defines d name → k.SafeWith .tenant d name) := by
  intro _
  have hsupplied := housing_supplied [⟨⟨0⟩, "_a = 1", .ofList ["_a"], .empty⟩,
    ⟨⟨1⟩, "y = _a", .ofList ["y"], .ofList ["_a"]⟩, ⟨⟨2⟩, "fail", .ofList ["_a"], .empty⟩]
  have hprivate : tenants.graph.isPrivate "_a" = true := by cbv
  constructor
  · intro hall
    have hasked : (tenants.requests .tenant tenants.pending .empty).map
        (fun q => q.1.inputs.get? "_a") = [none, some (.value (.int 1)), none] := by cbv
    have hin : some (.value (.int 1)) ∈ (tenants.requests .tenant tenants.pending .empty).map
        (fun q => q.1.inputs.get? "_a") := by simp [hasked]
    obtain ⟨q, hq, hb⟩ := List.mem_map.1 hin
    cases hall .empty tenants hsupplied tenants.pending .empty q hq "_a" _ hprivate hb
  · intro hall
    have hdef : (tenants.graph.cell? ⟨0⟩).map (fun c => c.defs.has "_a") = some true := by cbv
    have hsafe := hall .empty tenants hsupplied "_a" hprivate ⟨0⟩ (Option.map_eq_some_iff.1 hdef)
    have hplan : (tenants.graph.plan tenants.pending).order = [⟨0⟩, ⟨1⟩] ++ ⟨2⟩ :: [] := by cbv
    have hbefore : (([⟨0⟩, ⟨1⟩].foldl (Round.visit .tenant .empty)
        (tenants.readied tenants.pending {})).kernel.names.get? "_a") =
        some (.value (.int 1)) := by cbv
    have hafter : ((([⟨0⟩, ⟨1⟩].foldl (Round.visit .tenant .empty)
        (tenants.readied tenants.pending {})).visit .tenant .empty ⟨2⟩).kernel.names.get? "_a") =
        none := by cbv
    have hsame := hsafe.visit tenants.pending .empty _ _ _ hplan (by simp)
    rw [hbefore, hafter] at hsame
    cases hsame

end Notebook
