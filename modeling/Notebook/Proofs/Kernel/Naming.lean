/-
  Notebook.Proofs.Kernel.Naming — the names of elements are kept twice.

  The kernel has what every name is bound to, and the registry has, once more, which names are bound
  to elements.  Nothing compares the two afterwards, so whatever binds or unbinds a name has to see
  to both.  While cells are edited, run, blocked or told about anything, only two things can happen
  to a single name: both places are written so that they agree, or neither is written (`Tandem`).

  Main results:
    * `Session.grows_run` — programs register elements, and do not bind names,
    * `Tandem.bindOutputs` — what a run binds is bound in both places, once its names were unbound,
    * `Tandem.edit` / `Tandem.apply` / `Tandem.runOnce` — so it is with every edit, event and round,
    * `Tandem.runUntilIdle?` — and with a whole run.
-/
import Notebook.Proofs.Element.Rerun
import Notebook.Proofs.Kernel.Reachable

namespace Notebook

open Relation

/-! ## §1. Programs register elements. -/

namespace ElementRegistry

variable {r r₁ r' : ElementRegistry}

/-- The one registry comes from the other by registering elements. -/
def Grows : ElementRegistry → ElementRegistry → Prop :=
  ReflTransGen fun r r' => ∃ spec parent lens, r.register spec parent lens = .ok r'

namespace Grows

theorem of_eq (h : r' = r) : Grows r r' := h ▸ ReflTransGen.refl

theorem trans (h : Grows r r₁) (h' : Grows r₁ r') : Grows r r' := ReflTransGen.trans h h'

theorem register {spec : ElementSpec} {parent : Option ElementId} {lens : Lens}
    (h : r.register spec parent lens = .ok r') : Grows r r' := ReflTransGen.single ⟨_, _, _, h⟩

/-- This does not bind names. -/
theorem names (h : Grows r r') : r'.names = r.names := by
  induction h with
  | refl => rfl
  | tail _ hstep ih =>
    obtain ⟨spec, parent, lens, hregister⟩ := hstep
    exact (names_register hregister).trans ih

end Grows

end ElementRegistry

open ElementRegistry (Grows)

namespace Session

variable {κ σ : Type} [HashFunction]

omit [HashFunction] in
theorem elements_withFrame (s : Session κ σ) (f : Frame → Frame) :
    (s.withFrame f).elements = s.elements := by
  unfold withFrame
  split <;> rfl

omit [HashFunction] in
theorem grows_inFrame {α : Type} (s : Session κ σ) (f : Frame → Except Error α × Session κ σ)
    (hf : ∀ frame, Grows s.elements (f frame).2.elements) :
    Grows s.elements (s.inFrame f).2.elements := by
  unfold inFrame
  split
  · exact hf _
  · exact .of_eq rfl

/-- A call may register an element; it does nothing else to the registry. -/
theorem grows_answer (s : Session κ σ) (call : Call κ σ) :
    Grows s.elements (s.answer call).2.elements := by
  cases call with
  | recordEffect text => exact grows_inFrame s _ fun _ => .of_eq (elements_withFrame s _)
  | createElement place kind value =>
    refine grows_inFrame s _ fun frame => ?_
    cases frame.kind with
    | callback => exact .of_eq rfl
    | run =>
      dsimp only
      split
      · rename_i elements hregister
        rw [elements_withFrame] at hregister
        exact .register hregister
      · exact .of_eq (elements_withFrame s _)
  | createState initial => exact grows_inFrame s _ fun _ => .of_eq (elements_withFrame _ _)
  | writeState id value =>
    show Grows s.elements (s.writeState id value).2.elements
    unfold writeState
    split <;> exact .of_eq (elements_withFrame _ _)
  | bindModel model => exact grows_inFrame s _ fun _ => .of_eq (elements_withFrame _ _)
  | observeModel model observer => exact grows_inFrame s _ fun _ => .of_eq (elements_withFrame _ _)
  | watch path kind => exact grows_inFrame s _ fun _ => .of_eq (elements_withFrame _ _)
  | writeText handle text =>
    unfold answer writeText
    dsimp only
    split <;> exact .of_eq rfl
  | _ => exact .of_eq rfl

/-- **Programs register elements**, and leave their names alone. -/
theorem grows_run {α : Type} (s : Session κ σ) (p : Program κ σ α) :
    Grows s.elements (s.run p).2.elements := by
  induction p generalizing s with
  | done a => exact .of_eq rfl
  | ask call next ih => exact (grows_answer s call).trans (ih _ (s.answer call).2)

theorem grows_runObservers (x : Executor κ σ) (patch : Json) (observers : List κ)
    (s : Session κ σ) : Grows s.elements (runObservers x patch observers s).elements := by
  induction observers generalizing s with
  | nil => exact .of_eq rfl
  | cons observer rest ih => exact (grows_run s _).trans (ih _)

omit [HashFunction] in
theorem elements_leave (s : Session κ σ) : s.leave.2.elements = s.elements := by
  unfold leave
  split <;> rfl

theorem grows_dispatch {s' : Session κ σ} {owner : CellId} {x : Executor κ σ} {model : ModelId}
    {patch : Json} {s : Session κ σ} (h : s.dispatch x model patch = .ok (owner, s')) :
    Grows s.elements s'.elements := by
  unfold dispatch at h
  split at h
  · cases h
  · rename_i owner observers _
    obtain ⟨-, rfl⟩ := Prod.mk.inj (Except.ok.inj h)
    rw [elements_leave]
    exact grows_runObservers x patch observers (s.enter owner .callback)

end Session

namespace Kernel

variable {κ σ : Type} {k k' k₁ : Kernel κ σ} {c : Cell} {name : String} {S : CellSpec → Prop}

/-- So does a program that runs for a cell. -/
theorem grows_perform [HashFunction] {α : Type} (k : Kernel κ σ) (id : CellId)
    (p : Program κ σ α) : Grows k.session.elements (k.perform id p).2.2.session.elements := by
  have hrun : Grows k.session.elements _ := Session.grows_run (k.session.enter id .run) p
  unfold perform
  dsimp only
  split
  · exact hrun.trans (.of_eq (Session.elements_leave _))
  · exact hrun.trans (.of_eq (Session.elements_leave _))

/-! ## §2. Both places. -/

/-- The kernel and the registry of elements say the same of a name: to which element it is bound,
and whether it is bound to one at all. -/
def AgreedAt (k : Kernel κ σ) (name : String) : Prop :=
  ∀ a, k.names.get? name = some (.element a) ↔ k.session.elements.names.get? name = some a

/-- A name means the same as before in both places. -/
def LeavesName (k k' : Kernel κ σ) (name : String) : Prop :=
  k'.names.get? name = k.names.get? name ∧
    k'.session.elements.names.get? name = k.session.elements.names.get? name

/-- Whatever has become of a name, it was written in both places, or in neither. -/
def Tandem (k k' : Kernel κ σ) : Prop := ∀ name, k'.AgreedAt name ∨ LeavesName k k' name

/-- A name that is bound in neither place. -/
theorem AgreedAt.of_unbound (hname : k.names.get? name = none)
    (hbound : k.session.elements.names.get? name = none) : k.AgreedAt name := by
  intro a
  rw [hname, hbound]
  simp

theorem LeavesName.agreedAt (h : LeavesName k k' name) (hk : k.AgreedAt name) :
    k'.AgreedAt name := by
  intro a
  rw [h.1, h.2]
  exact hk a

namespace Tandem

/-- What leaves all names alone. -/
theorem of_eq (hnames : k'.names = k.names)
    (hbound : k'.session.elements.names = k.session.elements.names) : Tandem k k' :=
  fun _ => .inr ⟨by rw [hnames], by rw [hbound]⟩

theorem refl (k : Kernel κ σ) : Tandem k k := of_eq rfl rfl

/-- Where the names agreed they agree. -/
theorem agreedAt (h : Tandem k k') (hk : k.AgreedAt name) : k'.AgreedAt name :=
  (h name).elim id fun hsame => hsame.agreedAt hk

theorem trans (h : Tandem k k₁) (h' : Tandem k₁ k') : Tandem k k' := by
  intro name
  rcases h' name with hagreed | hsame'
  · exact .inl hagreed
  · exact (h name).imp hsame'.agreedAt fun hsame =>
      ⟨hsame'.1.trans hsame.1, hsame'.2.trans hsame.2⟩

/-- What unbinds names in both places, and touches no other name. -/
theorem of_unbound {p : String → Prop} [DecidablePred p]
    (hnames : ∀ name, k'.names.get? name = if p name then none else k.names.get? name)
    (hbound : ∀ name, k'.session.elements.names.get? name =
      if p name then none else k.session.elements.names.get? name) : Tandem k k' := by
  intro name
  by_cases hname : p name
  · exact .inl (.of_unbound (by rw [hnames, if_pos hname]) (by rw [hbound, if_pos hname]))
  · exact .inr ⟨by rw [hnames, if_neg hname], by rw [hbound, if_neg hname]⟩

/-! ## §3. Unbinding and binding. -/

theorem unbindAll (k : Kernel κ σ) (names : List String) : Tandem k (k.unbindAll names) := by
  rw [unbindAll_eq]
  exact of_unbound (fun name => Namespace.get?_removeAll k.names names name)
    fun name => ElementRegistry.get?_names_unbindAll k.session.elements names name

/-- The registry keeps the other names. -/
theorem bound_bind_other {other : String} (hother : other ≠ name) (b : Binding) :
    (k.bind name b).session.elements.names.get? other = k.session.elements.names.get? other := by
  cases b with
  | element id =>
    exact (Table.get?_insert k.session.elements.names name id other).trans (if_neg hother)
  | _ => rfl

/-- A name that is bound anew is bound in both places, if the registry did not have it. -/
theorem bind (hfree : k.session.elements.names.get? name = none) (b : Binding) :
    Tandem k (k.bind name b) := by
  have hinsert : (k.bind name b).names = k.names.insert name b := by
    unfold Kernel.bind
    cases b <;> rfl
  intro other
  by_cases hother : other = name
  · subst hother
    have hname : (k.bind other b).names.get? other = some b := by
      rw [hinsert, Namespace.get?_insert, if_pos rfl]
    refine .inl fun a => ?_
    rw [hname]
    cases b with
    | element id =>
      have hbound : (k.bind other (.element id)).session.elements.names.get? other = some id :=
        (Table.get?_insert k.session.elements.names other id other).trans (if_pos rfl)
      rw [hbound]
      simp
    | _ =>
      -- the registry is not told, and it is well that it has nothing under the name
      refine iff_of_false (fun h => nomatch h) fun h => ?_
      cases hfree.symm.trans h
  · refine .inr ⟨by rw [hinsert, Namespace.get?_insert, if_neg hother], bound_bind_other hother b⟩

/-- What a cell has produced is bound in both places, if the registry had none of its names. -/
theorem bindOutputs (hfree : ∀ name, c.defs.has name = true →
    k.session.elements.names.get? name = none) (output : CellOutput) :
    Tandem k (k.bindOutputs c output) := by
  -- on the entries of the outputs, of which those still to come must be free
  suffices key : ∀ (es : List (String × Binding)) (k : Kernel κ σ), Entries.Ascending es →
      (∀ e ∈ es, c.defs.has e.1 = true → k.session.elements.names.get? e.1 = none) →
      Tandem k (es.foldl
        (fun k (p : String × Binding) => if c.defs.has p.1 then k.bind p.1 p.2 else k) k) from
    key output.bindings.entries k output.bindings.ascending fun e _ => hfree e.1
  intro es
  induction es with
  | nil => exact fun k _ _ => refl k
  | cons e rest ih =>
    obtain ⟨name, b⟩ := e
    intro k hasc hfree
    obtain ⟨hlater, hrest⟩ := List.pairwise_cons.1 hasc
    by_cases hdef : c.defs.has name = true
    · have hbind := bind (hfree (name, b) List.mem_cons_self hdef) b
      simp only [List.foldl_cons, hdef, if_true]
      refine hbind.trans (ih _ hrest fun e he hdef' => ?_)
      have hne : e.1 ≠ name := by
        rintro rfl
        exact absurd (hlater e he) (by simp [Std.ReflCmp.compare_self])
      rw [bound_bind_other hne]
      exact hfree e (List.mem_cons_of_mem _ he) hdef'
    · simp only [List.foldl_cons, hdef]
      exact ih k hrest fun e he => hfree e (List.mem_cons_of_mem _ he)

theorem failCell (k : Kernel κ σ) (id : CellId) (now : CellStatus) (e : CellError) :
    Tandem k (k.failCell id now e) :=
  (unbindAll k (((k.graph.cell? id).map fun c => c.defs.toList).getD [])).trans (.of_eq rfl rfl)

/-! ## §4. Edits and events. -/

/-- An edit unbinds the names of a removed cell, or those that a cell no longer defines. -/
theorem edit (h : Edit S k k') : Tandem k k' := by
  cases h with
  | @removed c h =>
    obtain ⟨cache, hsession⟩ := h.tables
    refine of_unbound h.names fun name => ?_
    rw [hsession]
    refine (ElementRegistry.get?_names_unbindAll _ _ name).trans ?_
    simp only [OrderedSet.mem_toList]
  | noted h => exact of_eq h.names (by rw [h.session])
  | registered h =>
    refine of_unbound h.names fun name => ?_
    rw [h.tables]
    exact ElementRegistry.get?_names_unbindAll _ _ name

theorem edits (h : ReflTransGen (Edit S) k k') : Tandem k k' := by
  induction h with
  | refl => exact refl k
  | tail _ hstep ih => exact ih.trans (edit hstep)

theorem scheduleWrites (hg : k.graph.WellFormed) : Tandem k k.scheduleWrites :=
  of_eq (Asked.scheduleWrites hg).names (by rw [scheduleWrites_session])

variable [HashFunction]

/-- An event registers or deletes cells, or else it leaves all names alone. -/
theorem apply (hk : InOrder (fun _ => True) k) (x : Executor κ σ) (event : Event) :
    Tandem k (k.apply x event).2 := by
  have hg := hk.wellFormed
  cases event with
  | register specs =>
    have hedits : ReflTransGen (Edit fun _ => True) k (k.registerCells specs) :=
      registerCells_edits hk.toCoherent hk.waitFor fun _ _ => trivial
    exact edits hedits
  | delete cell =>
    show Tandem k (k.orUnchanged (k.deleteCell cell)).2
    cases hdelete : k.deleteCell cell with
    | ok k' => exact edits (deleteCell_edits hk.toCoherent hk.waitFor hdelete)
    | error e => exact refl k
  | run cells =>
    exact of_eq (Asked.runCells k cells.toList).names (by rw [Kernel.apply, runCells_session])
  | setElement element value =>
    show Tandem k (k.orUnchanged (k.setElementValue element value)).2
    unfold setElementValue
    cases hset : k.session.elements.setValue element value with
    | ok set =>
      obtain ⟨⟨root, patch⟩, elements⟩ := set
      exact of_eq rfl (ElementRegistry.names_setValue hset)
    | error e => exact refl k
  | updateModel model patch =>
    show Tandem k (k.orUnchanged (k.updateModel x model patch)).2
    unfold updateModel
    cases htold : k.session.dispatch x model patch with
    | ok told =>
      obtain ⟨owner, session⟩ := told
      have hqueued : Tandem k (({ k with session } : Kernel κ σ).schedule
          ((({ k with session } : Kernel κ σ).readersWhere (Binding.isModel model)).remove
            owner).toList) :=
        of_eq rfl (Session.grows_dispatch htold).names
      exact hqueued.trans (scheduleWrites hg)
    | error e => exact refl k
  | setState state value =>
    show Tandem k (k.orUnchanged (k.setState state value)).2
    unfold setState
    have hbound := (Session.grows_answer k.session (.writeState state value)).names
    change (k.session.writeState state value).2.elements.names = _ at hbound
    cases hwritten : k.session.writeState state value with
    | mk result session =>
      rw [hwritten] at hbound
      cases result with
      | ok _ =>
        have hwrote : Tandem k ({ k with session } : Kernel κ σ) := of_eq rfl hbound
        exact hwrote.trans (scheduleWrites hg)
      | error e => exact refl k
  | watchTriggered watch => exact of_eq rfl rfl
  | complete request start => exact of_eq rfl rfl

/-! ## §5. Rounds. -/

omit [HashFunction] in
/-- The names that a cell bound are unbound before it runs again. -/
theorem begun (k : Kernel κ σ) (c : Cell) : Tandem k (k.begun c) := by
  have hfresh : Tandem k
      ({ k.setStatus c.id .running with errors := k.errors.erase c.id } : Kernel κ σ) :=
    of_eq rfl rfl
  exact (hfresh.trans (unbindAll _ c.defs.toList)).trans (of_eq rfl rfl)

omit [HashFunction] in
/-- So the registry has none of them when the outputs are bound. -/
theorem begun_free (k : Kernel κ σ) (hdef : c.defs.has name = true) :
    (k.begun c).session.elements.names.get? name = none := by
  unfold Kernel.begun
  simp only [unbindAll_eq]
  refine (ElementRegistry.get?_names_unbindAll _ c.defs.toList name).trans (if_pos ?_)
  exact OrderedSet.mem_toList.2 hdef

theorem runLive (k : Kernel κ σ) (x : Executor κ σ) (c : Cell) (forced : Bool) :
    Tandem k (k.runLive x c forced).2 := by
  rw [runLive_eq]
  obtain ⟨cache, hserve⟩ := serve?_eq (k.begun c) c forced ((k.begun c).identityOf? c)
  generalize (k.begun c).serve? c forced ((k.begun c).identityOf? c) = served at hserve ⊢
  obtain ⟨found, k₁⟩ := served
  change k₁ = _ at hserve
  have hserved : Tandem k k₁ := (begun k c).trans (by rw [hserve]; exact of_eq rfl rfl)
  have hfree : ∀ name, c.defs.has name = true →
      k₁.session.elements.names.get? name = none := by
    rw [hserve]
    exact fun _ => begun_free k
  cases found with
  | some output => exact (hserved.trans (bindOutputs hfree output)).trans (of_eq rfl rfl)
  | none =>
    have hbound := (grows_perform k₁ c.id (x.execute (k.requestOf c))).names
    dsimp only [execute]
    generalize hrun : perform _ _ _ = performed at hbound ⊢
    obtain ⟨result, frame, k₂⟩ := performed
    change k₂.session.elements.names = _ at hbound
    have hran : Tandem k k₂ := hserved.trans (of_eq (congrArg (·.2.2.names) hrun).symm hbound)
    cases result with
    | ok output =>
      rw [← hbound] at hfree
      obtain ⟨cache', hkeep⟩ := keepResult_eq (k₂.bindOutputs c output) c.id
        ((k.begun c).identityOf? c) frame output
      dsimp only
      rw [hkeep]
      exact (hran.trans (bindOutputs hfree output)).trans (of_eq rfl rfl)
    | error text => exact hran.trans (failCell _ _ _ _)

theorem runCell (k : Kernel κ σ) (x : Executor κ σ) (id : CellId) (forced : Bool) :
    Tandem k (k.runCell x id forced).2 := by
  unfold Kernel.runCell
  split
  · exact runLive k x _ _
  · exact refl k

/-- A round, whether or not it is stopped. -/
theorem runOnce (hg : k.graph.WellFormed) (x : Executor κ σ) (roots forced : OrderedSet CellId)
    (report : RunReport) : Tandem k (k.runOnce x roots forced report).2 := by
  have hready : Tandem k (k.readied roots {}).kernel :=
    readied_keeps (fun _ _ _ _ h => h.trans (failCell _ _ _ _))
      (fun _ _ h => h.trans (of_eq rfl rfl)) (refl k) roots {}
  have hvisited : Tandem k (k.visitedAll x roots forced) :=
    visits_keep (P := Tandem k) (fun _ _ _ h => h.trans (of_eq rfl rfl))
      (fun _ _ _ _ _ h => h.trans (failCell _ _ _ _)) (fun _ _ _ _ h => h.trans (runCell _ x _ _))
      forced hready
  have hgv : (k.visitedAll x roots forced).graph.WellFormed :=
    (visitedAll_status hg x roots forced).1.wellFormed hg
  rw [runOnce_report, runOnce_eq]
  have hcollected : Tandem k (k.visitedAll x roots forced).collectGarbage :=
    hvisited.trans (of_eq rfl rfl)
  exact hcollected.trans (scheduleWrites hgv)

/-- A whole run, with the events that come in between its rounds. -/
theorem runUntilIdle? {x : Executor κ σ} {rounds : Nat} {report : RunReport}
    (hk : InOrder (fun _ => True) k)
    (hrun : k.runUntilIdle? x rounds = some (report, k')) : Tandem k k' := by
  have hboth := runUntilIdle?_keeps (P := fun k' => InOrder (fun _ => True) k' ∧ Tandem k k')
    (fun _ _ _ ⟨hk, h⟩ => ⟨hk.asked (.told _ _ _), h.trans (of_eq rfl rfl)⟩)
    (fun _ event ⟨hk, h⟩ => ⟨hk.apply x event, h.trans (apply hk x event)⟩)
    (fun _ ⟨hk, h⟩ =>
      ⟨hk.asked (.scheduleWrites hk.wellFormed), h.trans (scheduleWrites hk.wellFormed)⟩)
    (fun _ ⟨hk, h⟩ => ⟨hk.clearPending, h.trans (of_eq rfl rfl)⟩)
    (fun _ roots forced report ⟨hk, h⟩ =>
      ⟨hk.round x roots forced report, h.trans (runOnce hk.wellFormed x roots forced report)⟩)
    ⟨hk, refl k⟩ hrun
  exact hboth.2

omit [HashFunction] in
/-- A reset unbinds every name. -/
theorem reset (k : Kernel κ σ) (name : String) : k.reset.AgreedAt name := by
  obtain ⟨published, heq⟩ := reset_eq k
  rw [heq]
  exact .of_unbound rfl rfl

end Tandem

end Kernel

end Notebook
