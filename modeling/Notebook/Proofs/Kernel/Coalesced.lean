/-
  Notebook.Proofs.Kernel.Coalesced — applying only the events that nothing supersedes.

  Before a round the kernel applies the queued events that no later one supersedes.  For a queue of
  new values and completion requests it would come to the same to apply all of them, but for the
  messages: the elements end up with the same values (`ElementRegistry.foldl_receive_coalesce`), the
  same cells are queued, since who follows an element does not depend on its value, and of the
  completion requests the last one is answered.

  Main results:
    * `applyAll_inputs` — what a list of such events does to a kernel,
    * `Managed.drain_eq_applyAll` — applying those that remain and applying all of them.
-/
import Notebook.Digest.Sha256
import Notebook.Proofs.Element.Patches
import Notebook.Proofs.Element.Superseded
import Notebook.Proofs.Kernel.Bookkeeping
import Notebook.Proofs.Kernel.Elements

namespace Notebook

/-! ## §1. Who follows an element. -/

namespace ElementRegistry

variable {r r' : ElementRegistry}

/-- Registries with the same links have as many elements. -/
theorem size_congr (hlinks : r'.link? = r.link?) : r'.elements.size = r.elements.size := by
  let toLink (_ : ElementId) (e : Element) : Link := ⟨e.id, e.parent, e.lens⟩
  have htables : r'.elements.map toLink = r.elements.map toLink := by
    refine Table.ext_get? fun x => ?_
    rw [Table.get?_map, Table.get?_map]
    exact congrFun hlinks x
  simpa [Table.size, Table.map] using congrArg Table.size htables

theorem map_id_climb_congr (hlinks : r'.link? = r.link?) (steps : Nat) (x : ElementId) :
    (r'.climb steps x).map Element.id = (r.climb steps x).map Element.id := by
  induction steps generalizing x with
  | zero => rfl
  | succ steps ih =>
    have hlink := congrFun hlinks x
    rw [link?, link?] at hlink
    rw [climb, climb]
    cases he' : r'.get? x with
    | none =>
      rw [he'] at hlink
      rw [Option.map_eq_none_iff.1 hlink.symm]
    | some e' =>
      rw [he'] at hlink
      obtain ⟨e, he, hsame⟩ := Option.map_eq_some_iff.1 hlink.symm
      obtain ⟨hid, hparent, -⟩ := Link.mk.inj hsame
      rw [he]
      dsimp only
      rw [hparent]
      cases e'.parent with
      | none => rw [List.map_singleton, List.map_singleton, hid]
      | some p => rw [List.map_cons, List.map_cons, hid, ih p]

/-- The way up does not depend on values. -/
theorem map_id_lineage_congr (hlinks : r'.link? = r.link?) (x : ElementId) :
    (r'.lineage x).map Element.id = (r.lineage x).map Element.id := by
  unfold lineage
  rw [size_congr hlinks, map_id_climb_congr hlinks]

/-- The root above an element. -/
def rootOf? (r : ElementRegistry) (x : ElementId) : Option ElementId :=
  (r.lineage x).getLast?.map Element.id

theorem rootOf?_congr (hlinks : r'.link? = r.link?) (x : ElementId) :
    r'.rootOf? x = r.rootOf? x := by
  rw [rootOf?, rootOf?, ← List.getLast?_map, ← List.getLast?_map, map_id_lineage_congr hlinks]

theorem names_receive (r : ElementRegistry) (event : Event) :
    (r.receive event).names = r.names := by
  cases event with
  | setElement x v => exact names_writeThrough r x v
  | _ => rfl

end ElementRegistry

/-! ## §2. Values and completion requests. -/

/-- A new value of an element, or a completion request. -/
def Event.isInput : Event → Bool
  | .setElement _ _ => true
  | .complete _ _ => true
  | _ => false

/-- An answer to a completion request. -/
def Message.isCompletion : Message → Bool
  | .completion _ _ => true
  | _ => false

namespace Kernel

variable {κ σ : Type} {k k' : Kernel κ σ} {event : Event} {events : List Event}

/-- How a completion request is answered. -/
def answer? (k : Kernel κ σ) : Event → Option Message
  | .complete request start => some (.completion request (k.names.complete? .free start))
  | _ => none

/-- The cells that a new value queues: those that read a name of the element or of its root. -/
def alerted (k : Kernel κ σ) : Event → List CellId
  | .setElement x _ =>
    match k.session.elements.rootOf? x with
    | some root =>
      (k.graph.readersOf
        (k.session.elements.namesOf root ++ k.session.elements.namesOf x)).toList
    | none => []
  | _ => []

/-- The kernel with the values written, the cells queued and the messages published. -/
def updated (k : Kernel κ σ) (events : List Event) (news : List Message) : Kernel κ σ :=
  { k with
    session.elements := events.foldl ElementRegistry.receive k.session.elements
    pending := k.pending.addAll (events.flatMap k.alerted)
    published := news ++ k.published }

/-- What was queued does not change who is queued next. -/
theorem alerted_updated (k : Kernel κ σ) (event : Event) (news : List Message) :
    (k.updated [event] news).alerted = k.alerted := by
  funext e
  have hlinks := (ElementRegistry.alike_receive k.session.elements event).link?
  have hnames : (k.updated [event] news).session.elements.namesOf = k.session.elements.namesOf := by
    funext a
    show ElementRegistry.namesOf (k.session.elements.receive event) a = _
    rw [ElementRegistry.namesOf, ElementRegistry.namesOf, ElementRegistry.names_receive]
  cases e with
  | setElement x v =>
    show (match (k.session.elements.receive event).rootOf? x with
      | some root => (k.graph.readersOf ((k.updated [event] news).session.elements.namesOf root ++
          (k.updated [event] news).session.elements.namesOf x)).toList
      | none => []) = _
    rw [ElementRegistry.rootOf?_congr hlinks, hnames]
    rfl
  | _ => rfl

variable [HashFunction]

omit [HashFunction] in
/-- A value for an element that is not registered does nothing. -/
theorem updated_of_unknown {a : ElementId} (htop : (k.session.elements.lineage a).getLast? = none)
    (v : Json) : k.updated [.setElement a v] [] = k := by
  have hsame : k.session.elements.receive (.setElement a v) = k.session.elements := by
    rw [ElementRegistry.receive, ElementRegistry.writeThrough, List.getLast?_eq_none_iff.1 htop]
    rfl
  have hnobody : k.alerted (.setElement a v) = [] := by
    rw [alerted, ElementRegistry.rootOf?, htop]
    rfl
  unfold updated
  rw [List.foldl_cons, List.foldl_nil, hsame, List.flatMap_singleton, hnobody]
  rfl

/-- What one event does. -/
theorem apply_input (x : Executor κ σ) (h : event.isInput = true) :
    ∃ news, (k.apply x event).2 = k.updated [event] news ∧
      news.filter Message.isCompletion = (k.answer? event).toList := by
  cases event with
  | setElement a v =>
    show ∃ news, (k.orUnchanged (k.setElementValue a v)).2 = _ ∧ _
    unfold setElementValue ElementRegistry.setValue ElementRegistry.resolve
    cases htop : (k.session.elements.lineage a).getLast? with
    | none => exact ⟨[], (updated_of_unknown htop v).symm, rfl⟩
    | some top =>
      let patch := ElementRegistry.patchAlong v (k.session.elements.lineage a)
      refine ⟨[.elementValue top.id patch], ?_, rfl⟩
      have hnames := ElementRegistry.names_receive k.session.elements (.setElement a v)
      have hfollowers : k.alerted (.setElement a v) = (k.graph.readersOf
          ((k.session.elements.receive (.setElement a v)).namesOf top.id ++
            (k.session.elements.receive (.setElement a v)).namesOf a)).toList := by
        rw [alerted, ElementRegistry.rootOf?, htop]
        unfold ElementRegistry.namesOf
        rw [hnames]
        rfl
      unfold updated
      rw [List.flatMap_singleton, hfollowers]
      rfl
  | complete n s => exact ⟨[.completion n (k.names.complete? .free s)], rfl, rfl⟩
  | _ => cases h

omit [HashFunction] in
/-- Events after others. -/
theorem updated_updated (k : Kernel κ σ) (events : List Event) (news later : List Message) :
    (k.updated [event] news).updated events later =
      k.updated (event :: events) (later ++ news) := by
  have helements : events.foldl ElementRegistry.receive (k.updated [event] news).session.elements =
      (event :: events).foldl ElementRegistry.receive k.session.elements := rfl
  have hpending : (k.updated [event] news).pending.addAll (events.flatMap k.alerted) =
      k.pending.addAll ((event :: events).flatMap k.alerted) := by
    rw [List.flatMap_cons]
    unfold updated OrderedSet.addAll
    rw [List.flatMap_singleton, List.foldl_append]
  rw [updated, alerted_updated, helements, hpending]
  unfold updated
  rw [List.append_assoc]

/-- **What a list of such events does.**  Every completion request is answered. -/
theorem applyAll_inputs (x : Executor κ σ) (h : ∀ event ∈ events, event.isInput = true) :
    ∃ news, k.applyAll x events = k.updated events news ∧
      news.reverse.filter Message.isCompletion = events.filterMap k.answer? := by
  induction events generalizing k with
  | nil => exact ⟨[], rfl, rfl⟩
  | cons first rest ih =>
    obtain ⟨news, hfirst, hanswer⟩ := apply_input (k := k) x (h first List.mem_cons_self)
    obtain ⟨later, hrest, hanswers⟩ :=
      ih (k := k.updated [first] news) fun event he => h event (List.mem_cons_of_mem _ he)
    refine ⟨later ++ news, ?_, ?_⟩
    · rw [← updated_updated, ← hrest, ← hfirst]
      rfl
    · have hcons : (first :: rest).filterMap k.answer? =
          (k.answer? first).toList ++ rest.filterMap k.answer? := by
        cases hfirst : k.answer? first with
        | none => exact List.filterMap_cons_none hfirst
        | some m => exact List.filterMap_cons_some hfirst
      have hrev : (k.answer? first).toList.reverse = (k.answer? first).toList := by
        cases k.answer? first <;> rfl
      rw [List.reverse_append, List.filter_append, List.filter_reverse, hanswer, hrev, hanswers,
        hcons]
      rfl

/-! ## §3. Dropping what is superseded. -/

omit [HashFunction] in
theorem answer?_isSome : (k.answer? event).isSome = true ↔ ∃ n s, event = .complete n s := by
  cases event <;> simp [answer?]

omit [HashFunction] in
/-- A completion request is superseded when another one is to be answered later. -/
theorem any_supersedes_complete_iff {n : Nat} {s : String} :
    (events.any fun l => l.supersedes (.complete n s)) = true ↔
      events.filterMap k.answer? ≠ [] := by
  rw [List.any_eq_true, ← List.isEmpty_eq_false_iff, List.isEmpty_eq_false_iff_exists_mem]
  simp only [List.mem_filterMap]
  constructor
  · rintro ⟨l, hl, hsuper⟩
    rcases Event.supersedes_iff.1 hsuper with ⟨_, _, _, _, rfl, -⟩ | ⟨_, _, _, -, heq⟩
    · exact ⟨_, _, hl, rfl⟩
    · cases heq
  · rintro ⟨m, l, hl, hm⟩
    obtain ⟨n', s', rfl⟩ := answer?_isSome.1 (by rw [hm]; rfl)
    exact ⟨_, hl, rfl⟩

omit [HashFunction] in
/-- **Only the last request is left.** -/
theorem filterMap_answer?_coalesce (k : Kernel κ σ) (events : List Event) :
    (Event.coalesce events).filterMap k.answer? = (events.filterMap k.answer?).getLast?.toList := by
  induction events with
  | nil => rfl
  | cons first later ih =>
    rw [Event.coalesce]
    cases hanswer : k.answer? first with
    | none =>
      rw [List.filterMap_cons_none hanswer]
      split
      · exact ih
      · rw [List.filterMap_cons_none hanswer, ih]
    | some m =>
      obtain ⟨n, s, rfl⟩ := answer?_isSome.1 (by rw [hanswer]; rfl)
      rw [List.filterMap_cons_some hanswer]
      split
      · rename_i hlater
        rw [ih, List.getLast?_cons_of_ne_nil (any_supersedes_complete_iff.1 hlater)]
      · rename_i hnone
        rw [List.filterMap_cons_some hanswer, ih,
          not_not.1 fun hlater => hnone (any_supersedes_complete_iff.2 hlater)]
        rfl

omit [HashFunction] in
/-- Whom a superseded value queues is queued by the value that stays. -/
theorem addAll_alerted_coalesce (k : Kernel κ σ) (events : List Event) :
    k.pending.addAll ((Event.coalesce events).flatMap k.alerted) =
      k.pending.addAll (events.flatMap k.alerted) := by
  refine OrderedSet.ext_has fun id => ?_
  rw [OrderedSet.has_addAll, OrderedSet.has_addAll, List.mem_flatMap, List.mem_flatMap]
  refine or_congr_left ⟨?_, ?_⟩
  · rintro ⟨event, hevent, hid⟩
    exact ⟨event, (Event.coalesce_sublist events).subset hevent, hid⟩
  · rintro ⟨event, hevent, hid⟩
    obtain ⟨last, hlast, rfl | hsuper⟩ := Event.exists_mem_coalesce hevent
    · exact ⟨last, hlast, hid⟩
    · refine ⟨last, hlast, ?_⟩
      rcases Event.supersedes_iff.1 hsuper with ⟨_, _, _, _, rfl, rfl⟩ | ⟨_, _, _, rfl, rfl⟩
      · exact hid
      · exact hid

omit [HashFunction] in
/-- **Dropping what is superseded changes messages only.** -/
theorem updated_coalesce (hr : k.session.elements.Regular) (events : List Event)
    (news : List Message) :
    k.updated (Event.coalesce events) news = k.updated events news := by
  unfold updated
  rw [ElementRegistry.foldl_receive_coalesce hr, addAll_alerted_coalesce]

/-- **Applying the events that remain and applying all of them.**  Where no element is its own
ancestor and siblings are linked alike, the kernel that has applied what remains of a queue of
values and completion requests differs in its messages only from the kernel that has applied all of
it, one by one: the elements have the same values, and the same cells are to be run.  The one answer
to a completion request is that to the last one. -/
theorem Managed.drain_eq_applyAll {x : Executor κ σ} (hk : Managed x k)
    (hacyclic : k.session.elements.Acyclic) (hakin : k.session.elements.SiblingsAkin)
    (hinputs : ∀ event ∈ k.session.inbox, event.isInput = true) :
    (k.drain x).2 = { ({ k with session.inbox := [] } : Kernel κ σ).applyAll x k.session.inbox with
      published := (k.drain x).2.published } ∧
    ((k.drain x).2.messagesAfter k.published.length).filter Message.isCompletion =
      (k.session.inbox.filterMap k.answer?).getLast?.toList := by
  let k₀ : Kernel κ σ := { k with session.inbox := [] }
  have hr : k₀.session.elements.Regular := ⟨hk.keyed, hacyclic, hakin⟩
  have hkept : ∀ event ∈ Event.coalesce k.session.inbox, event.isInput = true := fun event he =>
    hinputs event ((Event.coalesce_sublist k.session.inbox).subset he)
  obtain ⟨news, hdrained, hanswers⟩ := applyAll_inputs (k := k₀) x hkept
  obtain ⟨all, happlied, -⟩ := applyAll_inputs (k := k₀) x hinputs
  rw [updated_coalesce hr] at hdrained
  have hdrain : (k.drain x).2 = k₀.updated k.session.inbox news := hdrained
  constructor
  · rw [hdrain]
    show _ = { k₀.applyAll x k.session.inbox with
      published := (k₀.updated k.session.inbox news).published }
    rw [happlied]
    rfl
  · have hnews : (k.drain x).2.messagesAfter k.published.length = news.reverse := by
      rw [hdrain]
      simp [messagesAfter, updated, k₀]
    rw [hnews, hanswers]
    exact filterMap_answer?_coalesce k k.session.inbox

end Kernel

/-! ## §4. A form that was replaced. -/

namespace Kernel

/-- The form in the array gives way to a plain value, and then its fields are given values, the
first one twice. -/
def formEvents : List Event :=
  [.setElement ⟨"mid"⟩ (.bool true), .setElement ⟨"x"⟩ (.int 5), .complete 1 "f",
    .setElement ⟨"y"⟩ (.int 3), .setElement ⟨"nowhere"⟩ .null, .setElement ⟨"x"⟩ (.int 7),
    .complete 2 "g"]

/-- A cell reads the array, and nothing is pending. -/
def arrayRead [HashFunction] : Kernel Unit Unit :=
  let elements := ElementRegistry.fieldsInForm.bind "grid" ⟨"outer"⟩
  let k : Kernel Unit Unit :=
    { config := { cellCache := false }, session := { own := (), elements } }
  ((k.init [("grid", .element ⟨"outer"⟩)]).apply .refuser
    (.register [⟨⟨0⟩, "grid", .empty, .ofList ["grid"]⟩])).2.clearPending

/-- The events are queued. -/
def formQueued [HashFunction] : Kernel Unit Unit := { arrayRead with session.inbox := formEvents }

theorem formQueued_managed [HashFunction] : Managed .refuser formQueued := by
  have hstart : Kernel.start { cellCache := false } {} 0 () =
      .ok ({ config := { cellCache := false }, session := { own := () } } : Kernel Unit Unit) := rfl
  have hbuilt : ElementRegistry.Evolves {}
      (ElementRegistry.fieldsInForm.bind "grid" ⟨"outer"⟩) :=
    ElementRegistry.fieldsInForm_orderly.reached.evolves.perform (.bind "grid" ⟨"outer"⟩)
  have hnew : Managed Executor.refuser _ := .start hstart
  have hseeded := (hnew.host { own := (), elements := _ } hbuilt).init
    [("grid", .element ⟨"outer"⟩)]
  exact ((hseeded.apply _).clearPending).host _ .refl

theorem formQueued_regular [HashFunction] : formQueued.session.elements.Regular := by
  have helements : formQueued.session.elements =
      ElementRegistry.fieldsInForm.bind "grid" ⟨"outer"⟩ := by cbv
  have horderly := ElementRegistry.fieldsInForm_orderly.bind "grid" ⟨"outer"⟩
  rw [helements]
  exact ⟨horderly.reached.keyed, horderly.reached.acyclic, horderly.independent.siblingsAkin⟩

/-- The first value of the field is not written, and the form ends up as if it had been. -/
theorem formQueued_drained :
    let _ := Sha256.hashFunction
    Managed .refuser formQueued ∧ formQueued.session.inbox = formEvents ∧
      (formQueued.drain .refuser).2.session.elements.value? ⟨"outer"⟩ =
        some (.array [.object [("x", .int 7), ("y", .int 3)]]) ∧
      (formQueued.drain .refuser).2.pending.toList = [⟨0⟩] ∧
      ((formQueued.drain .refuser).2.messagesAfter formQueued.published.length).filter
        Message.isCompletion = [.completion 2 (some ["grid"])] := by
  intro _
  have hregular := formQueued_regular
  obtain ⟨hstate, hanswers⟩ := formQueued_managed.drain_eq_applyAll hregular.acyclic hregular.akin
    (show ∀ event ∈ formEvents, event.isInput = true by decide)
  have hfacts : (fun k : Kernel Unit Unit =>
      (k.session.elements.value? ⟨"outer"⟩, k.pending.toList,
        (formEvents.filterMap formQueued.answer?).getLast?.toList))
      (({ formQueued with session.inbox := [] } : Kernel Unit Unit).applyAll .refuser
        formQueued.session.inbox) =
      (some (.array [.object [("x", .int 7), ("y", .int 3)]]), [⟨0⟩],
        [.completion 2 (some ["grid"])]) := by cbv
  -- one by one, the events are applied here only
  generalize ({ formQueued with session.inbox := [] } : Kernel Unit Unit).applyAll .refuser
    formQueued.session.inbox = applied at hstate hfacts
  simp only [Prod.mk.injEq] at hfacts
  obtain ⟨hvalue, hpending, hlast⟩ := hfacts
  refine ⟨formQueued_managed, rfl, ?_, ?_, hanswers.trans hlast⟩
  · rw [hstate]
    exact hvalue
  · rw [hstate]
    exact hpending

end Kernel

end Notebook
