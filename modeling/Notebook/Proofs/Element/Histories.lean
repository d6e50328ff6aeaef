/-
  Notebook.Proofs.Element.Histories — the registries that histories of operations leave.

  In every registry that is reached from the empty one without making an element its own ancestor
  (`ElementRegistry.Reached`), elements stand under their own identifiers and no element is its own
  ancestor.

  A registry is coherent if every composite holds the values of its children at their positions.
  The operations keep this as long as a value given to a composite holds the values of the elements
  registered under it, and siblings stand at different positions (`ElementRegistry.Orderly`).
  Nothing in the operations demands either.

  Main results:
    * `ElementRegistry.Reached.keyed`, `ElementRegistry.Reached.acyclic`,
    * `ElementRegistry.related_writeThrough`, `ElementRegistry.coherent_writeThrough` — what one
      write keeps,
    * `ElementRegistry.Orderly.coherent` — what an orderly history keeps.
-/
import Notebook.Proofs.Element.Lineage

namespace Notebook

namespace ElementRegistry

variable {r r₁ r' : ElementRegistry} {id x : ElementId} {v w : Json} {spec : ElementSpec}
  {parent : Option ElementId} {lens : Lens} {answer : ElementId × Json}

/-! ## §1. What the operations change. -/

/-- The value that an element has when it is registered: its own if it was built again unchanged. -/
def firstValue (r : ElementRegistry) (spec : ElementSpec) : Json :=
  match r.get? spec.id with
  | some old =>
    if old.fingerprint = spec.fingerprint ∧ old.kind = spec.kind then old.value else spec.value
  | none => spec.value

/-- The one registry is the other with an element put in, before its value is written anywhere. -/
structure PutIn (r : ElementRegistry) (spec : ElementSpec) (parent : Option ElementId) (lens : Lens)
    (r₁ : ElementRegistry) : Prop where
  link : ∀ x, r₁.link? x = if x = spec.id then some ⟨spec.id, parent, lens⟩ else r.link? x
  value : ∀ x, r₁.value? x = if x = spec.id then some (r.firstValue spec) else r.value? x

/-- The registry without one element. -/
def without (r : ElementRegistry) (id : ElementId) : ElementRegistry :=
  { r with elements := r.elements.erase id }

theorem link?_without (r : ElementRegistry) (hx : x ≠ id) : (r.without id).link? x = r.link? x :=
  congrArg _ ((Table.get?_erase r.elements id x).trans (if_neg hx))

theorem value?_without (r : ElementRegistry) (hx : x ≠ id) : (r.without id).value? x = r.value? x :=
  congrArg _ ((Table.get?_erase r.elements id x).trans (if_neg hx))

/-- Inserting an element puts it in, where the registry is otherwise the old one. -/
theorem putIn_insert (r₀ : ElementRegistry) {e : Element}
    (hlinks : ∀ x, x ≠ spec.id → r₀.link? x = r.link? x)
    (hvalues : ∀ x, x ≠ spec.id → r₀.value? x = r.value? x)
    (hlink : Link.mk e.id e.parent e.lens = ⟨spec.id, parent, lens⟩)
    (hvalue : e.value = r.firstValue spec) :
    r.PutIn spec parent lens { r₀ with elements := r₀.elements.insert spec.id e } := by
  have hget : ∀ x, ({ r₀ with elements := r₀.elements.insert spec.id e } : ElementRegistry).get? x =
      if x = spec.id then some e else r₀.get? x := Table.get?_insert r₀.elements spec.id e
  constructor
  · intro x
    rw [link?, hget]
    split
    · rw [Option.map_some, hlink]
    · exact hlinks x ‹_›
  · intro x
    rw [value?, hget]
    split
    · rw [Option.map_some, hvalue]
    · exact hvalues x ‹_›

/-- Lists of children are neither links nor values. -/
theorem detach_same (r : ElementRegistry) (e : Element) :
    (r.detach e).link? = r.link? ∧ (r.detach e).value? = r.value? := by
  unfold detach
  split
  · exact ⟨link?_update _ _ fun e => ⟨rfl, rfl, rfl⟩, value?_update _ _ fun e => rfl⟩
  · exact ⟨rfl, rfl⟩

/-- An element that has been put in is adopted by writing its value. -/
theorem PutIn.adopt (h : r.PutIn spec parent lens r₁) (p : ElementId) :
    ∃ r₂, r.PutIn spec parent lens r₂ ∧
      r₁.adopt p spec.id = r₂.writeThrough spec.id (r.firstValue spec) := by
  have hvalue : r₁.value? spec.id = some (r.firstValue spec) := by rw [h.value, if_pos rfl]
  obtain ⟨e, he, hfirst⟩ := Option.map_eq_some_iff.1 hvalue
  rw [ElementRegistry.adopt, he, ← hfirst]
  refine ⟨_, ⟨fun x => ?_, fun x => ?_⟩, rfl⟩
  · rw [link?_update, h.link]
    intro e
    split <;> exact ⟨rfl, rfl, rfl⟩
  · rw [value?_update, h.value]
    intro e
    split <;> rfl

/-- Without a parent that is all. -/
theorem PutIn.placed (h : r.PutIn spec parent lens r₁)
    (hplaced : (match parent with
      | some p => Except.ok (ε := Error) (r₁.adopt p spec.id)
      | none => .ok r₁) = .ok r') :
    ∃ r₂, r.PutIn spec parent lens r₂ ∧
      (r' = r₂.writeThrough spec.id (r.firstValue spec) ∨ (parent = none ∧ r' = r₂)) := by
  cases parent with
  | none => exact ⟨r₁, h, .inr ⟨rfl, (Except.ok.inj hplaced).symm⟩⟩
  | some p =>
    obtain ⟨r₂, hput, hadopt⟩ := h.adopt p
    exact ⟨r₂, hput, .inl (by rw [← Except.ok.inj hplaced, hadopt])⟩

/-- **What registering does.**  The element is put in, and under a parent its value is written
through its ancestors. -/
theorem register_eq_ok (h : r.register spec parent lens = .ok r') :
    ∃ r₁, r.PutIn spec parent lens r₁ ∧
      (r' = r₁.writeThrough spec.id (r.firstValue spec) ∨ (parent = none ∧ r' = r₁)) := by
  unfold register at h
  split at h
  · cases h
  · cases hold : r.get? spec.id with
    | none =>
      rw [hold] at h
      refine PutIn.placed (putIn_insert (r.without spec.id) ?_ ?_ rfl ?_) h
      · exact fun x hx => link?_without r hx
      · exact fun x hx => value?_without r hx
      · rw [firstValue, hold]
    | some old =>
      rw [hold] at h
      by_cases hsame : old.fingerprint = spec.fingerprint ∧ old.kind = spec.kind
      · simp only [hsame, and_self, if_true] at h
        refine PutIn.placed (putIn_insert (r.without spec.id) ?_ ?_ rfl ?_) h
        · exact fun x hx => link?_without r hx
        · exact fun x hx => value?_without r hx
        · rw [firstValue, hold]
          exact (if_pos hsame).symm
      · simp only [hsame, if_false] at h
        refine PutIn.placed (putIn_insert ((r.without spec.id).detach old) ?_ ?_ rfl ?_) h
        · exact fun x hx => by rw [(detach_same _ old).1, link?_without r hx]
        · exact fun x hx => by rw [(detach_same _ old).2, value?_without r hx]
        · rw [firstValue, hold]
          exact (if_neg hsame).symm

/-- What giving a value does. -/
theorem setValue_eq_ok_iff : r.setValue id v = .ok (answer, r') ↔
    r.resolve id v = .ok answer ∧ r' = r.writeThrough id v := by
  unfold setValue
  cases r.resolve id v with
  | error e => simp [Except.map]
  | ok found => simp [Except.map, eq_comm]

/-- No way leads up from an element that is not registered. -/
theorem lineage_of_get?_none (h : r.get? id = none) : r.lineage id = [] := by
  unfold lineage
  cases r.elements.size with
  | zero => rfl
  | succ n => rw [climb, h]

/-- A value can only be given to a registered element. -/
theorem get?_of_resolve (h : r.resolve id v = .ok answer) : ∃ e, r.get? id = some e := by
  cases hget : r.get? id with
  | some e => exact ⟨e, rfl⟩
  | none =>
    rw [resolve, lineage_of_get?_none hget] at h
    cases h

/-- Collecting takes elements out and leaves the others as they are. -/
theorem get?_of_collectGarbage {e : Element} (h : r.collectGarbage.2.get? x = some e) :
    r.get? x = some e := by
  have hfilter := Table.get?_filter (fun id _ => r.reachable.contains id) r.elements x
  exact (Option.filter_eq_some_iff.1 (hfilter.symm.trans h)).1

theorem link?_of_collectGarbage {k : Link} (h : r.collectGarbage.2.link? x = some k) :
    r.link? x = some k := by
  obtain ⟨e, he, rfl⟩ := Option.map_eq_some_iff.1 h
  exact link?_eq_some (get?_of_collectGarbage he)

theorem value?_of_collectGarbage (h : r.collectGarbage.2.value? x = some v) :
    r.value? x = some v := by
  obtain ⟨e, he, rfl⟩ := Option.map_eq_some_iff.1 h
  exact value?_eq_some (get?_of_collectGarbage he)

/-! ## §2. Histories. -/

/-- What a history of operations leaves, none of which makes an element its own ancestor. -/
inductive Reached : ElementRegistry → Prop
  | empty : Reached {}
  | register {r r' : ElementRegistry} {spec : ElementSpec} {parent : Option ElementId} {lens : Lens}
      (hr : Reached r) (h : r.register spec parent lens = .ok r') (hacyclic : r'.Acyclic) :
      Reached r'
  | setValue {r r' : ElementRegistry} {id : ElementId} {v : Json} {answer : ElementId × Json}
      (hr : Reached r) (h : r.setValue id v = .ok (answer, r')) : Reached r'
  | bind {r : ElementRegistry} (hr : Reached r) (name : String) (id : ElementId) :
      Reached (r.bind name id)
  | unbind {r : ElementRegistry} (hr : Reached r) (name : String) : Reached (r.unbind name)
  | collectGarbage {r : ElementRegistry} (hr : Reached r) : Reached r.collectGarbage.2

/-- Putting an element in keeps the identifiers right. -/
theorem PutIn.keyed (h : r.PutIn spec parent lens r₁) (hkeyed : r.Keyed) : r₁.Keyed := by
  intro x k hk
  rw [h.link] at hk
  split at hk
  · obtain rfl := Option.some.inj hk
    exact Eq.symm ‹_›
  · exact hkeyed x k hk

/-- Registering does, too. -/
theorem Keyed.register (hkeyed : r.Keyed) (h : r.register spec parent lens = .ok r') :
    r'.Keyed := by
  obtain ⟨r₁, hput, rfl | ⟨-, rfl⟩⟩ := register_eq_ok h
  · exact (hput.keyed hkeyed).congr (link?_writeThrough r₁ _ _)
  · exact hput.keyed hkeyed

theorem Keyed.collectGarbage (hkeyed : r.Keyed) : r.collectGarbage.2.Keyed :=
  fun x k hk => hkeyed x k (link?_of_collectGarbage hk)

theorem Acyclic.collectGarbage (hacyclic : r.Acyclic) : r.collectGarbage.2.Acyclic := by
  refine hacyclic.mono fun child parent hparent => ?_
  obtain ⟨k, hk, hkparent, hlive⟩ := hparent
  obtain ⟨kp, hkp⟩ := Option.isSome_iff_exists.1 hlive
  exact ⟨k, link?_of_collectGarbage hk, hkparent, by rw [link?_of_collectGarbage hkp]; rfl⟩

namespace Reached

/-- **Elements stand under their own identifiers.** -/
theorem keyed (h : r.Reached) : r.Keyed := by
  induction h with
  | empty => exact fun id k hk => nomatch hk
  | register hr h hacyclic ih => exact ih.register h
  | @setValue r r' id v answer hr h ih =>
    rw [(setValue_eq_ok_iff.1 h).2]
    exact ih.congr (link?_writeThrough r id v)
  | bind hr name id ih => exact ih
  | unbind hr name ih => exact ih
  | collectGarbage hr ih => exact ih.collectGarbage

/-- **No element is its own ancestor.** -/
theorem acyclic (h : r.Reached) : r.Acyclic := by
  induction h with
  | empty =>
    intro id hcycle
    obtain ⟨parent, ⟨k, hk, -⟩, -⟩ := Relation.TransGen.head'_iff.1 hcycle
    cases hk
  | register hr h hacyclic ih => exact hacyclic
  | @setValue r r' id v answer hr h ih =>
    rw [(setValue_eq_ok_iff.1 h).2]
    exact ih.congr (link?_writeThrough r id v)
  | bind hr name id ih => exact ih
  | unbind hr name ih => exact ih
  | collectGarbage hr ih => exact ih.collectGarbage

end Reached

/-! ## §3. Coherence. -/

/-- A value holds the values of all elements that are registered under `id`. -/
def ChildrenIn (r : ElementRegistry) (id : ElementId) (v : Json) : Prop :=
  ∀ c k w, r.link? c = some k → k.parent = some id → r.value? c = some w → k.lens.Holds v w

/-- Every element's value holds the values of the elements that are registered under it. -/
def Coherent (r : ElementRegistry) : Prop := ∀ p v, r.value? p = some v → r.ChildrenIn p v

/-- Every element's value holds those values, but perhaps that of `id`. -/
def CoherentBut (r : ElementRegistry) (id : ElementId) : Prop :=
  ∀ p v c k w, r.value? p = some v → c ≠ id → r.link? c = some k → k.parent = some p →
    r.value? c = some w → k.lens.Holds v w

/-- Elements under one parent stand at different positions. -/
def Independent (r : ElementRegistry) : Prop :=
  ∀ c c' k k' p, c ≠ c' → r.link? c = some k → r.link? c' = some k' → k.parent = some p →
    k'.parent = some p → (r.link? p).isSome → k.lens.Apart k'.lens

theorem Coherent.but (h : r.Coherent) (id : ElementId) : r.CoherentBut id :=
  fun p v c k w hv _ hk hparent hw => h p v hv c k w hk hparent hw

theorem Independent.congr (h : r.Independent) (hlinks : r'.link? = r.link?) : r'.Independent := by
  unfold Independent
  rw [hlinks]
  exact h

/-- **What one write keeps.**  A relation of a parent's value to a child's, which a write brings about
and a write at another position keeps, holds of all parents and children after a value was written
through the ancestors, if the value itself and all other elements had it. -/
theorem related_writeThrough {R : Lens → Json → Json → Prop}
    (hwritten : ∀ lens parent child, R lens (lens.write parent child) child)
    (hspared : ∀ {lens other : Lens} {parent child}, R other parent child → lens.Apart other →
      ∀ value, R other (lens.write parent value) child)
    (hkeyed : r.Keyed) (hacyclic : r.Acyclic) (hindep : r.Independent)
    {e : Element} (he : r.get? id = some e)
    (hchildren : ∀ c k w, r.link? c = some k → k.parent = some id → r.value? c = some w →
      R k.lens v w)
    (hbut : ∀ p v c k w, r.value? p = some v → c ≠ id → r.link? c = some k → k.parent = some p →
      r.value? c = some w → R k.lens v w) (p : ElementId) (vp : Json)
    (hvp : (r.writeThrough id v).value? p = some vp) (c : ElementId) (k : Link) (w : Json)
    (hk : (r.writeThrough id v).link? c = some k) (hparent : k.parent = some p)
    (hw : (r.writeThrough id v).value? c = some w) : R k.lens vp w := by
  rw [link?_writeThrough] at hk
  obtain ⟨ec, hec, rfl⟩ := Option.map_eq_some_iff.1 hk
  have hlive : (r.link? p).isSome := by
    rw [← link?_writeThrough r id v]
    obtain ⟨ep, hep, -⟩ := Option.map_eq_some_iff.1 hvp
    rw [link?_eq_some hep]
    rfl
  obtain ⟨ep, hep⟩ := exists_get?_of_link? hlive
  by_cases hc : ∃ w', r.Written id v c w'
  · -- the child is on the way up: its value has just been written into the parent
    obtain ⟨w', hc⟩ := hc
    rw [value?_writeThrough_of_written hkeyed hacyclic he hc] at hw
    rw [value?_writeThrough_of_written hkeyed hacyclic he (hc.above hec hparent hep)] at hvp
    obtain rfl := Option.some.inj hw
    obtain rfl := Option.some.inj hvp
    exact hwritten _ _ _
  · rw [value?_writeThrough_of_not_written hkeyed hacyclic he (not_exists.1 hc)] at hw
    have hne : c ≠ id := by
      intro heq
      exact hc ⟨v, heq ▸ .here⟩
    by_cases hp : ∃ v', r.Written id v p v'
    · obtain ⟨v', hp⟩ := hp
      rw [value?_writeThrough_of_written hkeyed hacyclic he hp] at hvp
      obtain rfl := Option.some.inj hvp
      cases hp with
      | here => exact hchildren c _ w hk hparent hw
      | @above c' _ w' ec' ep' hc' hec' hparent' hep' =>
        -- a sibling of an element on the way: it stands at another position
        have hother : c' ≠ c := by
          intro heq
          exact hc ⟨w', heq ▸ hc'⟩
        have hapart := hindep c' c _ _ p hother (link?_eq_some hec') hk hparent' hparent hlive
        have hold := hbut p ep'.value c _ w (value?_eq_some hep') hne hk hparent hw
        exact hspared hold hapart w'
    · rw [value?_writeThrough_of_not_written hkeyed hacyclic he (not_exists.1 hp)] at hvp
      exact hbut p vp c _ w hvp hne hk hparent hw

/-- **Every copy is right.**  A value that is written through the ancestors makes every copy of it
right, if it holds the values of the element's own children. -/
theorem coherent_writeThrough (hkeyed : r.Keyed) (hacyclic : r.Acyclic) (hindep : r.Independent)
    {e : Element} (he : r.get? id = some e) (hchildren : r.ChildrenIn id v)
    (hbut : r.CoherentBut id) : (r.writeThrough id v).Coherent :=
  related_writeThrough Lens.holds_write (fun h hapart => h.write_apart hapart) hkeyed hacyclic
    hindep he hchildren hbut

/-! ## §4. Orderly histories. -/

/-- What a history of operations leaves, each of which respects the elements that are registered: a
value holds the values of the elements under the one it is given to, and siblings stand at different
positions. -/
inductive Orderly : ElementRegistry → Prop
  | empty : Orderly {}
  | register {r r' : ElementRegistry} {spec : ElementSpec} {parent : Option ElementId} {lens : Lens}
      (hr : Orderly r) (h : r.register spec parent lens = .ok r') (hacyclic : r'.Acyclic)
      (hindep : r'.Independent) (hvalue : r.ChildrenIn spec.id (r.firstValue spec)) : Orderly r'
  | setValue {r r' : ElementRegistry} {id : ElementId} {v : Json} {answer : ElementId × Json}
      (hr : Orderly r) (h : r.setValue id v = .ok (answer, r')) (hvalue : r.ChildrenIn id v) :
      Orderly r'
  | bind {r : ElementRegistry} (hr : Orderly r) (name : String) (id : ElementId) :
      Orderly (r.bind name id)
  | unbind {r : ElementRegistry} (hr : Orderly r) (name : String) : Orderly (r.unbind name)
  | collectGarbage {r : ElementRegistry} (hr : Orderly r) : Orderly r.collectGarbage.2

theorem Independent.collectGarbage (h : r.Independent) : r.collectGarbage.2.Independent := by
  intro c c' k k' p hne hk hk' hparent hparent' hlive
  obtain ⟨kp, hkp⟩ := Option.isSome_iff_exists.1 hlive
  refine h c c' k k' p hne (link?_of_collectGarbage hk) (link?_of_collectGarbage hk') hparent
    hparent' ?_
  rw [link?_of_collectGarbage hkp]
  rfl

theorem Coherent.collectGarbage (h : r.Coherent) : r.collectGarbage.2.Coherent :=
  fun p v hv c k w hk hparent hw => h p v (value?_of_collectGarbage hv) c k w
    (link?_of_collectGarbage hk) hparent (value?_of_collectGarbage hw)

/-- Putting an element in: the values that are held are held still, but for its own. -/
theorem Coherent.putIn (h : r.Coherent) (hput : r.PutIn spec parent lens r₁)
    (hvalue : r.ChildrenIn spec.id (r.firstValue spec)) : r₁.CoherentBut spec.id := by
  intro p v c k w hv hne hk hparent hw
  rw [hput.link, if_neg hne] at hk
  rw [hput.value, if_neg hne] at hw
  rw [hput.value] at hv
  split at hv
  · obtain rfl := Option.some.inj hv
    subst p
    exact hvalue c k w hk hparent hw
  · exact h p v hv c k w hk hparent hw

/-- Its own value holds those of the elements under it. -/
theorem PutIn.childrenIn (hput : r.PutIn spec parent lens r₁) (hacyclic : r₁.Acyclic)
    (hvalue : r.ChildrenIn spec.id (r.firstValue spec)) :
    r₁.ChildrenIn spec.id (r.firstValue spec) := by
  intro c k w hk hparent hw
  have hlive : (r₁.link? spec.id).isSome := by
    rw [hput.link, if_pos rfl]
    rfl
  have hne : c ≠ spec.id := by
    intro heq
    subst heq
    exact hacyclic _ (.single ⟨k, hk, hparent, hlive⟩)
  rw [hput.link, if_neg hne] at hk
  rw [hput.value, if_neg hne] at hw
  exact hvalue c k w hk hparent hw

/-- **Registering keeps a registry coherent.** -/
theorem Coherent.register (hcoherent : r.Coherent) (hkeyed : r.Keyed)
    (h : r.register spec parent lens = .ok r') (hacyclic : r'.Acyclic) (hindep : r'.Independent)
    (hvalue : r.ChildrenIn spec.id (r.firstValue spec)) : r'.Coherent := by
  obtain ⟨r₁, hput, rfl | ⟨htop, rfl⟩⟩ := register_eq_ok h
  · have hlinks := link?_writeThrough r₁ spec.id (r.firstValue spec)
    have hlink : r₁.link? spec.id = some ⟨spec.id, parent, lens⟩ := by rw [hput.link, if_pos rfl]
    obtain ⟨e, he, -⟩ := Option.map_eq_some_iff.1 hlink
    have hacyclic₁ := hacyclic.congr hlinks.symm
    exact coherent_writeThrough (hput.keyed hkeyed) hacyclic₁ (hindep.congr hlinks.symm) he
      (hput.childrenIn hacyclic₁ hvalue) (hcoherent.putIn hput hvalue)
  · intro p v hv c k w hk hparent hw
    refine hcoherent.putIn hput hvalue p v c k w hv ?_ hk hparent hw
    -- an element without a parent is under none
    intro heq
    rw [hput.link, if_pos heq] at hk
    obtain rfl := Option.some.inj hk
    rw [htop] at hparent
    cases hparent

namespace Orderly

theorem reached (h : r.Orderly) : r.Reached := by
  induction h with
  | empty => exact .empty
  | register hr h hacyclic hindep hvalue ih => exact ih.register h hacyclic
  | setValue hr h hvalue ih => exact ih.setValue h
  | bind hr name id ih => exact ih.bind name id
  | unbind hr name ih => exact ih.unbind name
  | collectGarbage hr ih => exact ih.collectGarbage

theorem independent (h : r.Orderly) : r.Independent := by
  induction h with
  | empty => exact fun c c' k k' p hne hk => nomatch hk
  | register hr h hacyclic hindep hvalue ih => exact hindep
  | @setValue r r' id v answer hr h hvalue ih =>
    rw [(setValue_eq_ok_iff.1 h).2]
    exact ih.congr (link?_writeThrough r id v)
  | bind hr name id ih => exact ih
  | unbind hr name ih => exact ih
  | collectGarbage hr ih => exact ih.collectGarbage

/-- **What an orderly history keeps.**  Every composite holds the values of its children. -/
theorem coherent (h : r.Orderly) : r.Coherent := by
  induction h with
  | empty => exact fun p v hv => nomatch hv
  | register hr h hacyclic hindep hvalue ih =>
    exact ih.register hr.reached.keyed h hacyclic hindep hvalue
  | @setValue r r' id v answer hr h hvalue ih =>
    obtain ⟨hresolve, rfl⟩ := setValue_eq_ok_iff.1 h
    obtain ⟨e, he⟩ := get?_of_resolve hresolve
    exact coherent_writeThrough hr.reached.keyed hr.reached.acyclic hr.independent he hvalue
      (ih.but id)
  | bind hr name id ih => exact ih
  | unbind hr name ih => exact ih
  | collectGarbage hr ih => exact ih.collectGarbage

end Orderly

/-! ## §5. Fresh elements. -/

/-- Neither registered nor the parent of anything that is. -/
def IsFresh (r : ElementRegistry) (id : ElementId) : Prop :=
  r.contains id = false ∧ ∀ e ∈ r.elements.values, e.parent ≠ some id

instance (r : ElementRegistry) (id : ElementId) : Decidable (r.IsFresh id) :=
  inferInstanceAs (Decidable (_ ∧ _))

theorem mem_values {e : Element} (he : r.get? x = some e) : e ∈ r.elements.values :=
  List.mem_map.2 ⟨(x, e), (Table.get?_eq_some_iff r.elements).1 he, rfl⟩

theorem IsFresh.parent_ne (h : r.IsFresh id) {k : Link} (hk : r.link? x = some k) :
    k.parent ≠ some id := by
  obtain ⟨e, he, rfl⟩ := Option.map_eq_some_iff.1 hk
  exact h.2 e (mem_values he)

/-- Nothing is registered under a fresh element. -/
theorem IsFresh.childrenIn (h : r.IsFresh id) (v : Json) : r.ChildrenIn id v :=
  fun _ _ _ hk hparent _ => absurd hparent (h.parent_ne hk)

/-- Registering changes the link of one element. -/
theorem link?_register (h : r.register spec parent lens = .ok r') :
    r'.link? x = if x = spec.id then some ⟨spec.id, parent, lens⟩ else r.link? x := by
  obtain ⟨r₁, hput, rfl | ⟨-, rfl⟩⟩ := register_eq_ok h
  · rw [link?_writeThrough, hput.link]
  · exact hput.link x

/-- Elements are registered under registered ones. -/
theorem contains_of_register (h : r.register spec (some id) lens = .ok r') :
    r.contains id = true := by
  by_contra hmissing
  rw [register, Option.filter_some, if_pos (by simpa using hmissing)] at h
  cases h

/-- **A fresh element makes no cycle.** -/
theorem Acyclic.register_fresh (hacyclic : r.Acyclic)
    (h : r.register spec parent lens = .ok r') (hfresh : r.IsFresh spec.id) : r'.Acyclic := by
  -- nothing stands under the new element, so it is on no cycle
  have hnone : ∀ c, ¬ r'.IsParent c spec.id := by
    rintro c ⟨k, hk, hparent, -⟩
    rw [link?_register h] at hk
    split at hk
    · obtain rfl := Option.some.inj hk
      obtain rfl : parent = some spec.id := hparent
      have hlive := contains_of_register h
      rw [hfresh.1] at hlive
      cases hlive
    · exact hfresh.parent_ne hk hparent
  have hold : ∀ {a b}, a ≠ spec.id → r'.IsParent a b → r.IsParent a b := by
    intro a b ha hstep
    have hb : b ≠ spec.id := fun heq => hnone a (heq ▸ hstep)
    obtain ⟨k, hk, hparent, hlive⟩ := hstep
    rw [link?_register h, if_neg ha] at hk
    rw [link?_register h, if_neg hb] at hlive
    exact ⟨k, hk, hparent, hlive⟩
  have hpath : ∀ {a b}, Relation.TransGen r'.IsParent a b → a ≠ spec.id →
      Relation.TransGen r.IsParent a b := by
    intro a b hab
    induction hab using Relation.TransGen.head_induction_on with
    | single hstep => exact fun ha => .single (hold ha hstep)
    | head hstep _ ih =>
      exact fun ha => .head (hold ha hstep) (ih fun heq => hnone _ (heq ▸ hstep))
  intro x hcycle
  have hx : x ≠ spec.id := by
    obtain ⟨y, -, hstep⟩ := Relation.TransGen.tail'_iff.1 hcycle
    exact fun heq => hnone y (heq ▸ hstep)
  exact hacyclic x (hpath hcycle hx)

/-- All siblings in a registry stand at different positions. -/
def SiblingsApart (r : ElementRegistry) : Prop :=
  ∀ e ∈ r.elements.values, ∀ e' ∈ r.elements.values, e.id ≠ e'.id → e.parent.isSome →
    e.parent = e'.parent → e.lens.Apart e'.lens

instance (r : ElementRegistry) : Decidable r.SiblingsApart :=
  inferInstanceAs (Decidable (∀ e ∈ _, ∀ e' ∈ _, _))

theorem SiblingsApart.independent (h : r.SiblingsApart) (hkeyed : r.Keyed) : r.Independent := by
  intro c c' k k' p hne hk hk' hparent hparent' _
  obtain ⟨e, he, rfl⟩ := Option.map_eq_some_iff.1 hk
  obtain ⟨e', he', rfl⟩ := Option.map_eq_some_iff.1 hk'
  change e.parent = some p at hparent
  change e'.parent = some p at hparent'
  refine h e (mem_values he) e' (mem_values he') ?_ (by rw [hparent]; rfl)
    (hparent.trans hparent'.symm)
  rw [hkeyed.id_eq he, hkeyed.id_eq he']
  exact hne

/-- **Fresh elements at positions of their own are orderly.** -/
theorem Orderly.register_fresh (hr : r.Orderly) (h : r.register spec parent lens = .ok r')
    (hfresh : r.IsFresh spec.id) (hapart : r'.SiblingsApart) : r'.Orderly :=
  .register hr h (hr.reached.acyclic.register_fresh h hfresh)
    (hapart.independent (hr.reached.keyed.register h)) (hfresh.childrenIn _)

end ElementRegistry

end Notebook
