/-
  Notebook.Proofs.Kernel.Followers — which cells are queued when an element gets a value.

  A new value is written through every composite above the element, and a cell that reads any of
  them sees it.  The kernel asks the registry for the names of the element and of its root, and
  queues who reads those.  Names that runs have bound to elements are all known to the registry
  (`Enrolled`), so nobody who reads the element or the root is missed, except under a name that was
  given from outside.  Nobody asks for the names of the composites in between.

  Main results:
    * `Hosted.enrolled` — the registry knows the names that runs have bound to elements,
    * `Hosted.setElementValue_queues_iff` — who is queued, and when every reader is,
    * `Kernel.form_reader_not_queued` — a reader that is missed.
-/
import Notebook.Digest.Sha256
import Notebook.Proofs.Element.Mirror
import Notebook.Proofs.Kernel.Naming
import Notebook.Proofs.Kernel.Privacy

namespace Notebook

namespace Kernel

variable {κ σ : Type} {k k' : Kernel κ σ} {given : Table String Binding}

/-! ## §1. The registry knows what names are bound to. -/

/-- Every name that is bound to an element is bound to it in the registry, too, unless it was given
so from outside. -/
def Enrolled (given : Table String Binding) (k : Kernel κ σ) : Prop :=
  ∀ name a, k.names.get? name = some (.element a) →
    k.session.elements.names.get? name = some a ∨ given.get? name = some (.element a)

/-- What writes names in both places or in neither keeps the registry informed. -/
theorem Enrolled.tandem (h : Enrolled given k) (hstep : Tandem k k') : Enrolled given k' := by
  intro name a ha
  rcases hstep name with hagreed | hsame
  · exact .inl ((hagreed a).1 ha)
  · rw [hsame.1] at ha
    rw [hsame.2]
    exact h name a ha

/-! ## §2. Histories. -/

/-- The kernels that come about when cells are run by `x`, each with the bindings that were given
from outside, while whoever hosts the kernel leaves the names of elements alone. -/
inductive Hosted [HashFunction] (x : Executor κ σ) : Table String Binding → Kernel κ σ → Prop
  | start {config : Config} {disk : Disk} {clock : Nat} {own : σ} {k : Kernel κ σ} :
    Kernel.start config disk clock own = .ok k → Hosted x .empty k
  | init {given : Table String Binding} {k : Kernel κ σ} (initial : List (String × Binding)) :
    Hosted x given k → Hosted x (.ofList initial) (k.init initial)
  | reset {given : Table String Binding} {k : Kernel κ σ} :
    Hosted x given k → Hosted x .empty k.reset
  | apply {given : Table String Binding} {k : Kernel κ σ} (event : Event) :
    Hosted x given k → Hosted x given (k.apply x event).2
  | scheduleWrites {given : Table String Binding} {k : Kernel κ σ} :
    Hosted x given k → Hosted x given k.scheduleWrites
  | clearPending {given : Table String Binding} {k : Kernel κ σ} :
    Hosted x given k → Hosted x given k.clearPending
  | round {given : Table String Binding} {k : Kernel κ σ} (roots forced : OrderedSet CellId)
    (report : RunReport) :
    Hosted x given k → Hosted x given (k.runOnce x roots forced report).2
  /-- Whoever hosts the kernel runs programs, say, or queues events. -/
  | host {given : Table String Binding} {k : Kernel κ σ} (s : Session κ σ) :
    s.elements.names = k.session.elements.names →
    Hosted x given k → Hosted x given { k with session := s }

variable [HashFunction] {x : Executor κ σ} {element root a : ElementId} {value : Json} {id : CellId}

theorem Hosted.supplied (hk : Hosted x given k) : Supplied x given k := by
  induction hk with
  | start hstart => exact .start hstart
  | init initial _ ih => exact ih.init initial
  | reset _ ih => exact ih.reset
  | apply event _ ih => exact ih.apply event
  | scheduleWrites _ ih => exact ih.scheduleWrites
  | clearPending _ ih => exact ih.clearPending
  | round roots forced report _ ih => exact ih.round roots forced report
  | host s _ _ ih => exact ih.host s

theorem Hosted.inOrder (hk : Hosted x given k) : InOrder (fun _ => True) k :=
  hk.supplied.reachable.inOrder

theorem Hosted.wellFormed (hk : Hosted x given k) : k.graph.WellFormed := hk.inOrder.wellFormed

/-- **The registry knows the names that runs have bound to elements.** -/
theorem Hosted.enrolled (hk : Hosted x given k) : Enrolled given k := by
  induction hk with
  | start hstart =>
    obtain ⟨-, cache, heq⟩ := start_eq hstart
    intro name a ha
    rw [heq] at ha
    cases ha
  | init initial _ _ => exact fun name a ha => .inr ha
  | @reset given k _ _ => exact fun name a ha => .inl ((Tandem.reset k name a).1 ha)
  | apply event hk ih => exact ih.tandem (.apply hk.inOrder x event)
  | scheduleWrites hk ih => exact ih.tandem (.scheduleWrites hk.wellFormed)
  | clearPending _ ih => exact ih.tandem (.of_eq rfl rfl)
  | round roots forced report hk ih =>
    exact ih.tandem (.runOnce hk.wellFormed x roots forced report)
  | host s hbound _ ih => exact ih.tandem (.of_eq rfl hbound)

/-! ## §3. Who is queued. -/

/-- Under some public name that it does not define itself, a live cell reads what `p` says of the
name. -/
def ReadsName (k : Kernel κ σ) (id : CellId) (p : String → Prop) : Prop :=
  ∃ name, p name ∧ k.graph.isPrivate name = false ∧
    ∃ c, k.graph.cell? id = some c ∧ c.refs.has name = true ∧ c.defs.has name = false

/-- A live cell reads an element under a name that is bound to it. -/
def ReadsElement (k : Kernel κ σ) (id : CellId) (a : ElementId) : Prop :=
  k.ReadsName id fun name => k.names.get? name = some (.element a)

/-- A live cell reads a name that the registry knows to be bound to the element. -/
def Follows (k : Kernel κ σ) (id : CellId) (a : ElementId) : Prop :=
  k.ReadsName id fun name => k.session.elements.names.get? name = some a

/-- The element is given a new value when `element` is: it is that element or a composite above it,
as far as they are registered. -/
def WrittenWith (k : Kernel κ σ) (element a : ElementId) : Prop :=
  a ∈ (k.session.elements.lineage element).map Element.id

omit [HashFunction] in
theorem ReadsName.mono {p q : String → Prop} (h : k.ReadsName id p) (hpq : ∀ name, p name → q name) :
    k.ReadsName id q := by
  obtain ⟨name, hname, hread⟩ := h
  exact ⟨name, hpq name hname, hread⟩

omit [HashFunction] in
theorem readsName_of_readersOf (hg : k.graph.WellFormed) {p : String → Prop} {name : String}
    (hname : p name) (h : (k.graph.readersOf [name]).has id = true) : k.ReadsName id p := by
  obtain ⟨name', hmem, hread⟩ := (Graph.has_readersOf hg).1 h
  obtain rfl := List.mem_singleton.1 hmem
  exact ⟨name', hname, hread⟩

omit [HashFunction] in
theorem mem_namesOf {r : ElementRegistry} {name : String} :
    name ∈ r.namesOf a ↔ r.names.get? name = some a := by
  unfold ElementRegistry.namesOf
  rw [Table.mem_keys_iff, Table.get?_filter]
  cases r.names.get? name <;> simp

omit [HashFunction] in
/-- The root is the end of the way up. -/
theorem setElementValue_eq (h : k.setElementValue element value = .ok k') :
    ∃ root patch elements, (k.session.elements.lineage element).getLast?.map Element.id = some root ∧
      elements.names = k.session.elements.names ∧
      k' = ({ k with session := { k.session with elements } }.publish
        (.elementValue root patch)).schedule
          (k.graph.readersOf (elements.namesOf root ++ elements.namesOf element)).toList := by
  unfold setElementValue at h
  cases hset : k.session.elements.setValue element value with
  | error e => rw [hset] at h; cases h
  | ok set =>
    obtain ⟨⟨root, patch⟩, elements⟩ := set
    rw [hset] at h
    refine ⟨root, patch, elements, ?_, ElementRegistry.names_setValue hset, (Except.ok.inj h).symm⟩
    have hresolve := (ElementRegistry.setValue_eq_ok_iff.1 hset).1
    unfold ElementRegistry.resolve at hresolve
    split at hresolve
    · rename_i top htop
      rw [htop]
      exact congrArg some (Prod.mk.inj (Except.ok.inj hresolve)).1
    · cases hresolve

omit [HashFunction] in
/-- **Who is queued**: whoever follows the root or the element. -/
theorem has_pending_setElementValue (hg : k.graph.WellFormed)
    (h : k.setElementValue element value = .ok k')
    (hroot : (k.session.elements.lineage element).getLast?.map Element.id = some root) :
    k'.pending.has id = true ↔
      k.pending.has id = true ∨ k.Follows id root ∨ k.Follows id element := by
  obtain ⟨root', patch, elements, hroot', hnames, rfl⟩ := setElementValue_eq h
  obtain rfl := Option.some.inj (hroot.symm.trans hroot')
  have hfollows : (k.graph.readersOf (elements.namesOf root ++ elements.namesOf element)).has id =
      true ↔ k.Follows id root ∨ k.Follows id element := by
    rw [Graph.has_readersOf hg]
    simp only [List.mem_append, mem_namesOf, hnames, or_and_right, exists_or]
    rfl
  rw [← hfollows, or_comm]
  exact OrderedSet.has_addAll.trans (or_congr_left OrderedSet.mem_toList)

/-- A reader that the kernel may overlook: it reads a composite between the element and the root, or
a name that was given from outside. -/
def ReadsBeside (k : Kernel κ σ) (given : Table String Binding) (root element : ElementId)
    (id : CellId) (a : ElementId) : Prop :=
  k.ReadsName id fun name => k.names.get? name = some (.element a) ∧
    ((a ≠ root ∧ a ≠ element) ∨ given.get? name = some (.element a))

omit [HashFunction] in
/-- A reader of an element under a name that a run has bound follows it. -/
theorem Enrolled.follows (hk : Enrolled given k) (h : k.ReadsName id fun name =>
    k.names.get? name = some (.element a) ∧ given.get? name ≠ some (.element a)) :
    k.Follows id a :=
  h.mono fun name hname => (hk name a hname.1).resolve_right hname.2

/-- **Who is queued, and when every reader is.**  Whoever reads a name that the registry has for the
root or for the element is queued, and nobody else is.  So every reader of those two is, under any
name that a run has bound.  Every reader of every element that is written is queued exactly when
those who read a composite in between, or a name given from outside, were pending before or read
one of those names as well. -/
theorem Hosted.setElementValue_queues_iff (hk : Hosted x given k)
    (h : k.setElementValue element value = .ok k') :
    ∃ root, (k.session.elements.lineage element).getLast?.map Element.id = some root ∧
      (∀ id, k'.pending.has id = true ↔
        k.pending.has id = true ∨ k.Follows id root ∨ k.Follows id element) ∧
      (∀ id a, a = root ∨ a = element → (k.ReadsName id fun name =>
          k.names.get? name = some (.element a) ∧ given.get? name ≠ some (.element a)) →
        k'.pending.has id = true) ∧
      ((∀ id a, k.WrittenWith element a → k.ReadsElement id a → k'.pending.has id = true) ↔
        ∀ id a, k.WrittenWith element a → k.ReadsBeside given root element id a →
          k.pending.has id = true ∨ k.Follows id root ∨ k.Follows id element) := by
  obtain ⟨root, patch, elements, hroot, -⟩ := setElementValue_eq h
  have hpending : ∀ id, k'.pending.has id = true ↔
      k.pending.has id = true ∨ k.Follows id root ∨ k.Follows id element :=
    fun id => has_pending_setElementValue hk.wellFormed h hroot
  refine ⟨root, hroot, hpending, fun id a ha hread => ?_, ?_⟩
  · have hfollows := hk.enrolled.follows hread
    rw [hpending]
    rcases ha with rfl | rfl
    · exact .inr (.inl hfollows)
    · exact .inr (.inr hfollows)
  · constructor
    · intro hall id a hwritten hbeside
      exact (hpending id).1 (hall id a hwritten (hbeside.mono fun _ hname => hname.1))
    · intro hall id a hwritten hread
      rw [hpending]
      obtain ⟨name, hname, hread⟩ := hread
      by_cases hplace : (a ≠ root ∧ a ≠ element) ∨ given.get? name = some (.element a)
      · exact hall id a hwritten ⟨name, ⟨hname, hplace⟩, hread⟩
      · obtain ⟨hends, hrun⟩ := not_or.1 hplace
        have hfollows := hk.enrolled.follows ⟨name, ⟨hname, hrun⟩, hread⟩
        by_cases ha : a = root
        · exact .inr (.inl (ha ▸ hfollows))
        · have helement : a = element := by_contra fun hne => hends ⟨ha, hne⟩
          exact .inr (.inr (helement ▸ hfollows))

end Kernel

/-! ## §4. A form in a grid. -/

/-- Names the grid and the form; with any other code it binds nothing. -/
def Executor.namer : Executor Unit Unit where
  execute q :=
    if q.code = "name" then
      .done (.ok { bindings := .ofList [("form", .element ⟨"f"⟩), ("grid", .element ⟨"g"⟩)] })
    else .done (.ok {})
  observe _ _ := .done (.ok ())

/-- A slider in a form in a grid. -/
def sliderInForm : ElementRegistry := .performAll
  [.register (ElementRegistry.plainSpec "g" .array) none .identity,
    .register (ElementRegistry.plainSpec "f" .dictionary) (some ⟨"g"⟩) (.index 0),
    .register (ElementRegistry.plainSpec "x" (.leaf "slider")) (some ⟨"f"⟩) (.key "x")]

/-- A new kernel with the elements. -/
def Kernel.formBuilt : Kernel Unit Unit :=
  { config := { cellCache := false }, session := { own := (), elements := sliderInForm } }

/-- A cell names the grid and the form, one reads the grid, and one the form; all have run. -/
def Kernel.formShown [HashFunction] : Kernel Unit Unit :=
  let k := formBuilt.registerCells [⟨⟨0⟩, "name", .ofList ["form", "grid"], .empty⟩,
    ⟨⟨1⟩, "grid", .empty, .ofList ["grid"]⟩, ⟨⟨2⟩, "form", .empty, .ofList ["form"]⟩]
  (k.clearPending.runOnce .namer k.pending k.forced {}).2

theorem Kernel.formShown_hosted [HashFunction] : Hosted .namer .empty formShown := by
  have hstart : Kernel.start { cellCache := false } {} 0 () =
      .ok ({ config := { cellCache := false }, session := { own := () } } : Kernel Unit Unit) := rfl
  have hnew : Hosted Executor.namer .empty _ := .start hstart
  have hbuilt := hnew.host formBuilt.session (by rfl)
  exact ((hbuilt.apply (.register _)).clearPending).round _ _ {}

/-- What is there: the way up from the slider, what the names are bound to, and who reads them. -/
theorem Kernel.formShown_facts [HashFunction] :
    (formShown.session.elements.lineage ⟨"x"⟩).map Element.id = [⟨"x"⟩, ⟨"f"⟩, ⟨"g"⟩] ∧
      formShown.names.get? "grid" = some (.element ⟨"g"⟩) ∧
      formShown.names.get? "form" = some (.element ⟨"f"⟩) ∧
      (formShown.graph.readersOf ["grid"]).toList = [⟨1⟩] ∧
      (formShown.graph.readersOf ["form"]).toList = [⟨2⟩] := by
  have hall : (fun k : Kernel Unit Unit =>
      ((k.session.elements.lineage ⟨"x"⟩).map Element.id, k.names.get? "grid", k.names.get? "form",
        (k.graph.readersOf ["grid"]).toList, (k.graph.readersOf ["form"]).toList)) formShown =
      ([⟨"x"⟩, ⟨"f"⟩, ⟨"g"⟩], some (.element ⟨"g"⟩), some (.element ⟨"f"⟩), [⟨1⟩], [⟨2⟩]) := by cbv
  simpa only [Prod.mk.injEq] using hall

/-- The slider can be given a value, and then only the reader of the grid is pending. -/
theorem Kernel.exists_formShown_moved [HashFunction] :
    ∃ k', formShown.setElementValue ⟨"x"⟩ (.int 5) = .ok k' ∧ k'.pending.toList = [⟨1⟩] := by
  have hmoved : (formShown.setElementValue ⟨"x"⟩ (.int 5)).toOption.map (·.pending.toList) =
      some [⟨1⟩] := by cbv
  cases h : formShown.setElementValue ⟨"x"⟩ (.int 5) with
  | error e => rw [h] at hmoved; cases hmoved
  | ok k' =>
    rw [h] at hmoved
    exact ⟨k', rfl, Option.some.inj hmoved⟩

/-- The reader of the grid is queued. -/
theorem Kernel.grid_reader_queued :
    let _ := Sha256.hashFunction
    ∃ k', Hosted .namer .empty formShown ∧
      formShown.setElementValue ⟨"x"⟩ (.int 5) = .ok k' ∧ k'.pending.has ⟨1⟩ = true := by
  intro _
  obtain ⟨k', hmoved, -⟩ := exists_formShown_moved
  obtain ⟨hway, hgrid, -, hreaders, -⟩ := formShown_facts
  obtain ⟨root, hroot, -, hends, -⟩ := formShown_hosted.setElementValue_queues_iff hmoved
  rw [← List.getLast?_map, hway] at hroot
  obtain rfl := Option.some.inj hroot
  exact ⟨k', formShown_hosted, hmoved, hends ⟨1⟩ ⟨"g"⟩ (.inl rfl)
    (readsName_of_readersOf formShown_hosted.wellFormed ⟨hgrid, fun hgiven => nomatch hgiven⟩
      (OrderedSet.mem_toList.1 (by simp [hreaders])))⟩

/-- **A reader that is missed.**  The form is given a new value, and the cell that reads it is not
queued. -/
theorem Kernel.form_reader_not_queued :
    let _ := Sha256.hashFunction
    ¬ ∀ (x : Executor Unit Unit) (given : Table String Binding) (k k' : Kernel Unit Unit)
      (element : ElementId) (value : Json), Hosted x given k →
      k.setElementValue element value = .ok k' →
      ∀ id a, k.WrittenWith element a → k.ReadsElement id a → k'.pending.has id = true := by
  intro _ hall
  obtain ⟨k', hmoved, hpending⟩ := exists_formShown_moved
  obtain ⟨hway, -, hform, -, hreaders⟩ := formShown_facts
  have hwritten : formShown.WrittenWith ⟨"x"⟩ ⟨"f"⟩ := by
    rw [WrittenWith, hway]
    simp
  have hqueued := hall .namer .empty formShown k' ⟨"x"⟩ (.int 5) formShown_hosted hmoved ⟨2⟩ ⟨"f"⟩
    hwritten (readsName_of_readersOf formShown_hosted.wellFormed hform
      (OrderedSet.mem_toList.1 (by simp [hreaders])))
  rw [← OrderedSet.mem_toList, hpending] at hqueued
  simp at hqueued

end Notebook
