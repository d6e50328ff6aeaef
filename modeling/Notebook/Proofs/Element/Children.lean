/-
  Notebook.Proofs.Element.Children — what registering an element does to lists of children.

  Registering puts one element in place.  Only two lists change besides its own: that of the composite
  it is registered under, which takes it in, and that of the composite it was under before, which
  gives it up, but only if the element starts anew.  An element that is built again unchanged keeps
  its own list and stays in every list that it was in.

  Main results:
    * `ElementRegistry.fixture?_register`, `ElementRegistry.mem_childrenOf_register` — the element
      that is put in place, and every list of children afterwards,
    * `ElementRegistry.reachable_induction` — what is kept when garbage is collected,
    * `ElementRegistry.Reached.sound` — a list of children holds registered elements, each once.
-/
import Notebook.Proofs.Element.Histories

namespace Notebook

namespace ElementRegistry

variable {r r₀ r₁ r' : ElementRegistry} {id x c p : ElementId} {v : Json} {e : Element}
  {spec : ElementSpec} {parent : Option ElementId} {lens : Lens} {answer : ElementId × Json}

/-! ## §1. Registered elements without their values. -/

/-- All of an element that stays as it was registered; its value and its children change later. -/
structure Fixture where
  id : ElementId
  kind : ElementKind
  fingerprint : Digest
  cell : CellId
  parent : Option ElementId
  lens : Lens

/-- How an element was registered. -/
def fixture? (r : ElementRegistry) (id : ElementId) : Option Fixture :=
  (r.get? id).map fun e => ⟨e.id, e.kind, e.fingerprint, e.cell, e.parent, e.lens⟩

theorem fixture?_eq_some (h : r.get? id = some e) :
    r.fixture? id = some ⟨e.id, e.kind, e.fingerprint, e.cell, e.parent, e.lens⟩ := by
  rw [fixture?, h, Option.map_some]

theorem childrenOf_eq (h : r.get? id = some e) : r.childrenOf id = e.children := by
  rw [childrenOf, h]
  rfl

theorem isSome_fixture? (r : ElementRegistry) (id : ElementId) :
    (r.fixture? id).isSome = r.contains id := by
  rw [fixture?, Option.isSome_map]
  rfl

theorem contains_of_get? (h : r.get? id = some e) : r.contains id = true := by
  rw [← isSome_fixture?, fixture?_eq_some h]
  rfl

/-- Only registered elements have children. -/
theorem childrenOf_eq_nil (h : r.contains id = false) : r.childrenOf id = [] := by
  cases hget : r.get? id with
  | none => rw [childrenOf, hget]; rfl
  | some e => rw [contains_of_get? hget] at h; cases h

theorem contains_of_mem_childrenOf (h : c ∈ r.childrenOf p) : r.contains p = true := by
  by_contra hnot
  rw [childrenOf_eq_nil (Bool.eq_false_iff.2 hnot)] at h
  cases h

/-- Elements of two registries that were registered alike and have the same children: they may
differ in their values. -/
structure Alike (r r' : ElementRegistry) : Prop where
  fixture : r'.fixture? = r.fixture?
  children : r'.childrenOf = r.childrenOf

theorem Alike.trans (h : Alike r r₁) (h' : Alike r₁ r') : Alike r r' :=
  ⟨h'.fixture.trans h.fixture, h'.children.trans h.children⟩

theorem Alike.contains (h : Alike r r') (id : ElementId) : r'.contains id = r.contains id := by
  rw [← isSome_fixture?, h.fixture, isSome_fixture?]

/-- They are where they were. -/
theorem Alike.link? (h : Alike r r') : r'.link? = r.link? := by
  have hlink : ∀ (r : ElementRegistry) x,
      r.link? x = (r.fixture? x).map fun f => ⟨f.id, f.parent, f.lens⟩ := by
    intro r x
    rw [ElementRegistry.link?, fixture?, Option.map_map]
    rfl
  funext x
  rw [hlink, hlink, h.fixture]

/-- All of a registry are its elements and names. -/
theorem eq_of_get? (h : ∀ x, r'.get? x = r.get? x) (hnames : r'.names = r.names) : r' = r := by
  obtain ⟨elements, names⟩ := r
  obtain ⟨elements', names'⟩ := r'
  obtain rfl : elements' = elements := Table.ext_get? h
  obtain rfl : names' = names := hnames
  rfl

/-- All of a registry is how elements were registered, their children, values and names. -/
theorem eq_of_alike (halike : Alike r r') (hvalues : r'.value? = r.value?)
    (hnames : r'.names = r.names) : r' = r := by
  refine eq_of_get? (fun x => ?_) hnames
  have hfixture := congrFun halike.fixture x
  have hchildren := congrFun halike.children x
  have hvalue := congrFun hvalues x
  unfold fixture? at hfixture
  unfold childrenOf at hchildren
  unfold value? at hvalue
  cases h' : r'.get? x with
  | none =>
    rw [h'] at hfixture
    exact (Option.map_eq_none_iff.1 hfixture.symm).symm
  | some e' =>
    rw [h'] at hfixture hchildren hvalue
    obtain ⟨e, he, hsame⟩ := Option.map_eq_some_iff.1 hfixture.symm
    rw [he] at hchildren hvalue ⊢
    obtain ⟨id, kind, value, fingerprint, cell, parent, lens, children⟩ := e
    obtain ⟨id', kind', value', fingerprint', cell', parent', lens', children'⟩ := e'
    simp_all

theorem fixture?_update (r : ElementRegistry) (id : ElementId) {f : Element → Element}
    (hf : ∀ e, (f e).id = e.id ∧ (f e).kind = e.kind ∧ (f e).fingerprint = e.fingerprint ∧
      (f e).cell = e.cell ∧ (f e).parent = e.parent ∧ (f e).lens = e.lens) :
    (r.update id f).fixture? = r.fixture? := by
  funext x
  rw [fixture?, get?_update]
  split
  · rw [Option.map_map, fixture?]
    congr 1
    funext e
    obtain ⟨h₁, h₂, h₃, h₄, h₅, h₆⟩ := hf e
    show Fixture.mk (f e).id (f e).kind (f e).fingerprint (f e).cell (f e).parent (f e).lens = _
    rw [h₁, h₂, h₃, h₄, h₅, h₆]
  · rfl

/-- A change of one element's children by `g`. -/
theorem childrenOf_update (r : ElementRegistry) (id : ElementId) {f : Element → Element}
    {g : List ElementId → List ElementId} (hf : ∀ e, (f e).children = g e.children)
    (hlive : r.contains x = true) :
    (r.update id f).childrenOf x = if x = id then g (r.childrenOf x) else r.childrenOf x := by
  obtain ⟨e, he⟩ := Option.isSome_iff_exists.1 hlive
  change r.get? x = some e at he
  split
  · have hget : (r.update id f).get? x = some (f e) := by
      rw [get?_update, if_pos ‹_›, he, Option.map_some]
    rw [childrenOf_eq hget, childrenOf_eq he, hf]
  · have hget : (r.update id f).get? x = some e := by rw [get?_update, if_neg ‹_›, he]
    rw [childrenOf_eq hget, childrenOf_eq he]

/-- Giving elements new values changes nothing else. -/
theorem alike_assign (r : ElementRegistry) (values : List (ElementId × Json)) :
    Alike r (r.assign values) := by
  induction values generalizing r with
  | nil => exact ⟨rfl, rfl⟩
  | cons first values ih =>
    obtain ⟨id, value⟩ := first
    refine Alike.trans ⟨?_, ?_⟩ (ih (r.update id fun e => { e with value }))
    · exact fixture?_update r id fun e => ⟨rfl, rfl, rfl, rfl, rfl, rfl⟩
    · funext x
      rw [childrenOf, get?_update, childrenOf]
      split
      · rw [Option.map_map]
        rfl
      · rfl

theorem alike_writeThrough (r : ElementRegistry) (id : ElementId) (v : Json) :
    Alike r (r.writeThrough id v) := alike_assign r _

/-- What is written is of no concern. -/
theorem Alike.writeThrough (h : Alike r r') (id : ElementId) (v w : Json) :
    Alike (r.writeThrough id v) (r'.writeThrough id w) where
  fixture := by
    rw [(alike_writeThrough r' id w).fixture, (alike_writeThrough r id v).fixture, h.fixture]
  children := by
    rw [(alike_writeThrough r' id w).children, (alike_writeThrough r id v).children, h.children]

theorem alike_setValue (h : r.setValue id v = .ok (answer, r')) : Alike r r' := by
  rw [(setValue_eq_ok_iff.1 h).2]
  exact alike_writeThrough r id v

/-! ## §2. Registering. -/

/-- The element was built again unchanged: it is registered with this fingerprint and kind. -/
def rebuilds (r : ElementRegistry) (spec : ElementSpec) : Bool :=
  (r.get? spec.id).any fun old => old.fingerprint = spec.fingerprint ∧ old.kind = spec.kind

theorem contains_of_rebuilds (h : r.rebuilds spec = true) : r.contains spec.id = true := by
  unfold rebuilds at h
  cases hget : r.get? spec.id with
  | none => rw [hget] at h; cases h
  | some e => exact contains_of_get? hget

/-- What is left of the children of `x` when an element is taken out to be put in anew. -/
def spared (r : ElementRegistry) (spec : ElementSpec) (x : ElementId) : List ElementId :=
  if x = spec.id then if r.rebuilds spec then r.childrenOf x else []
  else if !r.rebuilds spec && (r.get? spec.id).bind Element.parent == some x then
    (r.childrenOf x).filter (· ≠ spec.id)
  else r.childrenOf x

/-- The children of `x` when `child` has been adopted by `parent`. -/
def withAdopted (parent : Option ElementId) (child x : ElementId) (children : List ElementId) :
    List ElementId :=
  if parent = some x ∧ child ∉ children then children ++ [child] else children

/-- Whether registering succeeds depends on the parent only. -/
theorem register_eq_error_iff : (∃ err, r.register spec parent lens = .error err) ↔
    ∃ p, parent = some p ∧ r.contains p = false := by
  unfold register
  cases parent with
  | none => simp
  | some p =>
    rw [Option.filter_some]
    cases hp : r.contains p <;> simp [hp]

/-- Inserting one element under its own identifier. -/
theorem get?_insert (r : ElementRegistry) (id : ElementId) (e : Element) (x : ElementId) :
    ({ r with elements := r.elements.insert id e } : ElementRegistry).get? x =
      if x = id then some e else r.get? x := Table.get?_insert r.elements id e x

theorem get?_without (r : ElementRegistry) (id x : ElementId) :
    (r.without id).get? x = if x = id then none else r.get? x := Table.get?_erase r.elements id x

/-- Detaching an element takes it out of the list of its parent. -/
theorem childrenOf_detach (r : ElementRegistry) (e : Element) (hlive : r.contains x = true) :
    (r.detach e).childrenOf x =
      if e.parent = some x then (r.childrenOf x).filter (· ≠ e.id) else r.childrenOf x := by
  unfold detach
  cases hparent : e.parent with
  | none => simp
  | some p =>
    dsimp only
    rw [childrenOf_update (g := fun l => l.filter (· ≠ e.id)) r p (fun _ => rfl) hlive]
    simp only [Option.some.injEq, eq_comm]

theorem fixture?_detach (r : ElementRegistry) (e : Element) :
    (r.detach e).fixture? = r.fixture? := by
  unfold detach
  split
  · exact fixture?_update r _ fun e => ⟨rfl, rfl, rfl, rfl, rfl, rfl⟩
  · rfl

/-- Adopting a registered element changes one list of children. -/
theorem childrenOf_adopt (hc : r.get? c = some e) (hlive : r.contains x = true) :
    (r.adopt p c).childrenOf x = withAdopted (some p) c x (r.childrenOf x) := by
  rw [adopt, hc]
  dsimp only
  rw [(alike_writeThrough _ _ _).children,
    childrenOf_update (g := fun l => if l.contains c then l else l ++ [c]) r p ?_ hlive]
  · unfold withAdopted
    by_cases hx : x = p
    · subst hx
      by_cases hmem : c ∈ r.childrenOf x <;> simp [hmem]
    · rw [if_neg hx, if_neg fun h => hx (Option.some.inj h.1).symm]
  · intro q
    split <;> rfl

theorem fixture?_adopt (r : ElementRegistry) (p c : ElementId) :
    (r.adopt p c).fixture? = r.fixture? := by
  rw [adopt]
  split
  · rfl
  · rw [(alike_writeThrough _ _ _).fixture]
    refine fixture?_update r p fun q => ?_
    split <;> exact ⟨rfl, rfl, rfl, rfl, rfl, rfl⟩

/-- The registry when an element has been put in, before its parent adopts it. -/
structure Inserted (r : ElementRegistry) (spec : ElementSpec) (parent : Option ElementId)
    (lens : Lens) (r₁ : ElementRegistry) : Prop where
  fixture : ∀ x, r₁.fixture? x = if x = spec.id then
    some ⟨spec.id, spec.kind, spec.fingerprint, spec.cell, parent, lens⟩ else r.fixture? x
  children : ∀ x, r₁.contains x = true → r₁.childrenOf x = r.spared spec x

/-- Inserting an element into a registry in which the others are as they will be. -/
theorem inserted_of_get? (r₀ : ElementRegistry) {e : Element}
    (hfixture : ∀ x, x ≠ spec.id → r₀.fixture? x = r.fixture? x)
    (hchildren : ∀ x, x ≠ spec.id → r₀.contains x = true → r₀.childrenOf x = r.spared spec x)
    (he : Fixture.mk e.id e.kind e.fingerprint e.cell e.parent e.lens =
      ⟨spec.id, spec.kind, spec.fingerprint, spec.cell, parent, lens⟩)
    (hself : e.children = r.spared spec spec.id) :
    r.Inserted spec parent lens { r₀ with elements := r₀.elements.insert spec.id e } where
  fixture := by
    intro x
    rw [fixture?, get?_insert]
    split
    · rw [Option.map_some, he]
    · exact hfixture x ‹_›
  children := by
    intro x hlive
    by_cases hx : x = spec.id
    · subst hx
      rw [childrenOf, get?_insert, if_pos rfl]
      exact hself
    · have hget := get?_insert r₀ spec.id e x
      rw [if_neg hx] at hget
      have hlive₀ : r₀.contains x = true := by
        unfold contains Table.contains at hlive ⊢
        rw [← get?, hget] at hlive
        exact hlive
      rw [childrenOf, hget]
      exact hchildren x hx hlive₀

/-- **What registering does.**  The element is in place, its parent has adopted it, and an element
that starts anew is out of the list that it was in. -/
structure Placed (r : ElementRegistry) (spec : ElementSpec) (parent : Option ElementId)
    (lens : Lens) (r' : ElementRegistry) : Prop where
  fixture : ∀ x, r'.fixture? x = if x = spec.id then
    some ⟨spec.id, spec.kind, spec.fingerprint, spec.cell, parent, lens⟩ else r.fixture? x
  children : ∀ x, r'.contains x = true →
    r'.childrenOf x = withAdopted parent spec.id x (r.spared spec x)

theorem Inserted.placed (h : r.Inserted spec parent lens r₁)
    (hplaced : (match parent with
      | some p => Except.ok (ε := Error) (r₁.adopt p spec.id)
      | none => .ok r₁) = .ok r') : r.Placed spec parent lens r' := by
  cases parent with
  | none =>
    obtain rfl := Except.ok.inj hplaced
    exact ⟨h.fixture, h.children⟩
  | some p =>
    obtain rfl := Except.ok.inj hplaced
    obtain ⟨e, he⟩ : ∃ e, r₁.get? spec.id = some e := by
      refine Option.isSome_iff_exists.1 ?_
      show r₁.contains spec.id = true
      rw [← isSome_fixture?, h.fixture, if_pos rfl]
      rfl
    refine ⟨fun x => ?_, fun x hlive => ?_⟩
    · rw [fixture?_adopt, h.fixture]
    · have hlive₁ : r₁.contains x = true := by
        rw [← isSome_fixture?, fixture?_adopt, isSome_fixture?] at hlive
        exact hlive
      rw [childrenOf_adopt he hlive₁, h.children x hlive₁]

/-- An element has its own list still if it was built again unchanged. -/
theorem mem_spared_self :
    c ∈ r.spared spec spec.id ↔ r.rebuilds spec = true ∧ c ∈ r.childrenOf spec.id := by
  rw [spared, if_pos rfl]
  cases r.rebuilds spec <;> simp

/-- Another list loses the element only, and only if it starts anew and was registered there. -/
theorem mem_spared_of_ne (hx : x ≠ spec.id) : c ∈ r.spared spec x ↔ c ∈ r.childrenOf x ∧
    ¬ (c = spec.id ∧ r.rebuilds spec = false ∧ (r.get? spec.id).bind Element.parent = some x) := by
  rw [spared, if_neg hx]
  cases r.rebuilds spec with
  | true => simp
  | false =>
    by_cases hparent : (r.get? spec.id).bind Element.parent = some x <;> simp [hparent]

/-- Whoever is no parent of the element, or if it was built again unchanged, keeps its children. -/
theorem spared_eq_self (hx : x ≠ spec.id)
    (hkeep : r.rebuilds spec = true ∨ (r.get? spec.id).bind Element.parent ≠ some x) :
    r.spared spec x = r.childrenOf x := by
  rw [spared, if_neg hx]
  rcases hkeep with hkeep | hkeep <;> simp [hkeep]

theorem register_placed (hkeyed : r.Keyed) (h : r.register spec parent lens = .ok r') :
    r.Placed spec parent lens r' := by
  have hwithout : ∀ x, x ≠ spec.id → (r.without spec.id).get? x = r.get? x :=
    fun x hx => by rw [get?_without, if_neg hx]
  unfold register at h
  split at h
  · cases h
  · cases hold : r.get? spec.id with
    | none =>
      rw [hold] at h
      have hnew : r.rebuilds spec = false := by simp [rebuilds, hold]
      refine Inserted.placed (inserted_of_get? (r.without spec.id) ?_ ?_ rfl ?_) h
      · exact fun x hx => by rw [fixture?, hwithout x hx, fixture?]
      · intro x hx _
        rw [spared_eq_self hx (.inr (by simp [hold])), childrenOf, hwithout x hx, childrenOf]
      · simp [spared, hnew]
    | some old =>
      rw [hold] at h
      by_cases hsame : old.fingerprint = spec.fingerprint ∧ old.kind = spec.kind
      · have hrebuilt : r.rebuilds spec = true := by simp [rebuilds, hold, hsame]
        simp only [hsame, and_self, if_true] at h
        refine Inserted.placed (inserted_of_get? (r.without spec.id) ?_ ?_ rfl ?_) h
        · exact fun x hx => by rw [fixture?, hwithout x hx, fixture?]
        · intro x hx _
          rw [spared_eq_self hx (.inl hrebuilt), childrenOf, hwithout x hx, childrenOf]
        · simp [spared, hrebuilt, childrenOf_eq hold]
      · have hnew : r.rebuilds spec = false := by simpa [rebuilds, hold] using hsame
        simp only [hsame, if_false] at h
        refine Inserted.placed
          (inserted_of_get? ((r.without spec.id).detach old) ?_ ?_ rfl ?_) h
        · exact fun x hx => by rw [fixture?_detach, fixture?, hwithout x hx, fixture?]
        · intro x hx hlive
          have hlive₀ : (r.without spec.id).contains x = true := by
            rw [← isSome_fixture?, fixture?_detach, isSome_fixture?] at hlive
            exact hlive
          rw [childrenOf_detach _ old hlive₀, childrenOf, hwithout x hx, ← childrenOf,
            hkeyed.id_eq hold, spared, if_neg hx]
          simp [hnew, hold]
        · simp [spared, hnew]

/-- Registering settles one element and leaves the others as they were registered. -/
theorem fixture?_register (hkeyed : r.Keyed) (h : r.register spec parent lens = .ok r')
    (x : ElementId) : r'.fixture? x = if x = spec.id then
      some ⟨spec.id, spec.kind, spec.fingerprint, spec.cell, parent, lens⟩ else r.fixture? x :=
  (register_placed hkeyed h).fixture x

/-- Every list of children after registering. -/
theorem childrenOf_register (hkeyed : r.Keyed) (h : r.register spec parent lens = .ok r')
    (hlive : r'.contains x = true) :
    r'.childrenOf x = withAdopted parent spec.id x (r.spared spec x) :=
  (register_placed hkeyed h).children x hlive

/-- Registering adds one element and evicts none. -/
theorem contains_register (hkeyed : r.Keyed) (h : r.register spec parent lens = .ok r') :
    r'.contains x = true ↔ x = spec.id ∨ r.contains x = true := by
  rw [← isSome_fixture?, fixture?_register hkeyed h, ← isSome_fixture?]
  by_cases hx : x = spec.id <;> simp [hx]

/-- Only binding and unbinding change what names are bound to. -/
theorem names_assign (r : ElementRegistry) (values : List (ElementId × Json)) :
    (r.assign values).names = r.names := by
  induction values generalizing r with
  | nil => rfl
  | cons first values ih => exact ih (r.update first.1 fun e => { e with value := first.2 })

theorem names_writeThrough (r : ElementRegistry) (x : ElementId) (v : Json) :
    (r.writeThrough x v).names = r.names :=
  names_assign r _

theorem names_adopt (r : ElementRegistry) (p c : ElementId) : (r.adopt p c).names = r.names := by
  rw [adopt]
  split
  · rfl
  · exact names_assign _ _

theorem names_detach (r : ElementRegistry) (e : Element) : (r.detach e).names = r.names := by
  unfold detach
  split <;> rfl

theorem names_placed (hnames : r₁.names = r.names)
    (hplaced : (match parent with
      | some p => Except.ok (ε := Error) (r₁.adopt p spec.id)
      | none => .ok r₁) = .ok r') : r'.names = r.names := by
  cases parent with
  | none => exact Except.ok.inj hplaced ▸ hnames
  | some p => exact Except.ok.inj hplaced ▸ (names_adopt r₁ p spec.id).trans hnames

theorem names_register (h : r.register spec parent lens = .ok r') : r'.names = r.names := by
  unfold register at h
  split at h
  · cases h
  · cases hold : r.get? spec.id with
    | none =>
      rw [hold] at h
      refine names_placed ?_ h
      rfl
    | some old =>
      rw [hold] at h
      by_cases hsame : old.fingerprint = spec.fingerprint ∧ old.kind = spec.kind
      · simp only [hsame, and_self, if_true] at h
        refine names_placed ?_ h
        rfl
      · simp only [hsame, if_false] at h
        refine names_placed ?_ h
        exact names_detach (r.without spec.id) old

theorem names_setValue (h : r.setValue id v = .ok (answer, r')) : r'.names = r.names := by
  rw [(setValue_eq_ok_iff.1 h).2]
  exact names_assign _ _

/-! ## §3. Collecting. -/

/-- What names reach is kept as it is, and all else is gone. -/
theorem get?_collectGarbage (r : ElementRegistry) (x : ElementId) :
    r.collectGarbage.2.get? x = if x ∈ r.reachable then r.get? x else none := by
  refine (Table.get?_filter (fun id _ => r.reachable.contains id) r.elements x).trans ?_
  rw [← get?]
  by_cases hx : x ∈ r.reachable
  · cases hget : r.get? x <;> simp [Option.filter, hx]
  · cases hget : r.get? x <;> simp [Option.filter, hx]

theorem contains_collectGarbage :
    r.collectGarbage.2.contains x = true ↔ x ∈ r.reachable ∧ r.contains x = true := by
  rw [← isSome_fixture?, ← isSome_fixture?, fixture?, fixture?, get?_collectGarbage]
  by_cases hx : x ∈ r.reachable <;> simp [hx]

theorem fixture?_collectGarbage (hlive : r.collectGarbage.2.contains x = true) :
    r.collectGarbage.2.fixture? x = r.fixture? x := by
  rw [fixture?, get?_collectGarbage, if_pos (contains_collectGarbage.1 hlive).1, fixture?]

theorem childrenOf_collectGarbage (hlive : r.collectGarbage.2.contains x = true) :
    r.collectGarbage.2.childrenOf x = r.childrenOf x := by
  rw [childrenOf, get?_collectGarbage, if_pos (contains_collectGarbage.1 hlive).1, childrenOf]

theorem mem_keys_iff_contains : x ∈ r.elements.keys ↔ r.contains x = true :=
  Table.mem_keys_iff r.elements

/-- A registered element is reached if a name is bound to it. -/
theorem mem_reachable_of_name {name : String} (hname : r.names.get? name = some x)
    (hlive : r.contains x = true) : x ∈ r.reachable := by
  refine subset_closure _ _ _ (List.mem_filter.2 ⟨?_, hlive⟩)
  exact List.mem_map.2 ⟨(name, x), (Table.get?_eq_some_iff r.names).1 hname, rfl⟩

/-- A registered element is reached if a composite that holds it is. -/
theorem mem_reachable_of_child (hp : p ∈ r.reachable) (hc : c ∈ r.childrenOf p)
    (hlive : r.contains c = true) : c ∈ r.reachable :=
  closure_closed hp hc (mem_keys_iff_contains.2 hlive)

/-- **What is reached.**  A property of the elements that names are bound to, which every composite
passes on to its children, holds of all that is kept. -/
theorem reachable_induction {s : ElementId → Prop}
    (hname : ∀ name x, r.names.get? name = some x → r.contains x = true → s x)
    (hchild : ∀ p c, p ∈ r.reachable → s p → c ∈ r.childrenOf p → r.contains c = true → s c) :
    ∀ x ∈ r.reachable, s x := by
  suffices hall : ∀ x ∈ r.reachable, x ∈ r.reachable ∧ s x from fun x hx => (hall x hx).2
  refine closure_subset ?_ ?_
  · intro root hroot
    have hlive := (List.mem_filter.1 hroot).2
    obtain ⟨⟨name, root'⟩, hmem, rfl⟩ := List.mem_map.1 (List.mem_filter.1 hroot).1
    exact ⟨subset_closure _ _ _ hroot, hname name _ ((Table.get?_eq_some_iff r.names).2 hmem) hlive⟩
  · intro p hp c hc hlive
    rw [mem_keys_iff_contains] at hlive
    exact ⟨mem_reachable_of_child hp.1 hc hlive, hchild p c hp.1 hp.2 hc hlive⟩

/-! ## §4. Lists of children after histories. -/

/-- Lists of children hold registered elements, each of them once. -/
structure Sound (r : ElementRegistry) : Prop where
  live : ∀ p c, c ∈ r.childrenOf p → r.contains c = true
  nodup : ∀ p, (r.childrenOf p).Nodup

theorem Sound.congr (h : r.Sound) (halike : Alike r r') : r'.Sound where
  live := fun p c hc => by
    rw [halike.children] at hc
    rw [halike.contains]
    exact h.live p c hc
  nodup := by
    rw [halike.children]
    exact h.nodup

theorem spared_sublist (r : ElementRegistry) (spec : ElementSpec) (x : ElementId) :
    (r.spared spec x).Sublist (r.childrenOf x) := by
  unfold spared
  split
  · split
    · exact List.Sublist.refl _
    · exact List.nil_sublist _
  · split
    · exact List.filter_sublist
    · exact List.Sublist.refl _

theorem mem_withAdopted {children : List ElementId} :
    c ∈ withAdopted parent id x children ↔ c ∈ children ∨ (c = id ∧ parent = some x) := by
  unfold withAdopted
  by_cases hparent : parent = some x
  · by_cases hmem : id ∈ children
    · simp only [hparent, hmem, not_true_eq_false, and_false, if_false, and_true]
      exact ⟨.inl, fun h => h.elim (fun h => h) fun h => h ▸ hmem⟩
    · simp [hparent, hmem]
  · simp [hparent]

theorem nodup_withAdopted {children : List ElementId} (h : children.Nodup) :
    (withAdopted parent id x children).Nodup := by
  unfold withAdopted
  split
  · rename_i hadopted
    refine List.Nodup.append h (List.nodup_singleton id) ?_
    simpa using hadopted.2
  · exact h

/-- **The children after registering.** -/
theorem mem_childrenOf_register (hkeyed : r.Keyed) (h : r.register spec parent lens = .ok r') :
    c ∈ r'.childrenOf p ↔ c ∈ r.spared spec p ∨ (c = spec.id ∧ parent = some p) := by
  cases hp : r'.contains p with
  | true => rw [childrenOf_register hkeyed h hp, mem_withAdopted]
  | false =>
    have hgone : r.contains p ≠ true := by
      intro hlive
      rw [(contains_register hkeyed h).2 (.inr hlive)] at hp
      cases hp
    rw [childrenOf_eq_nil hp]
    refine iff_of_false List.not_mem_nil ?_
    rintro (hmem | ⟨-, rfl⟩)
    · exact hgone (contains_of_mem_childrenOf ((r.spared_sublist spec p).subset hmem))
    · exact hgone (contains_of_register h)

theorem Sound.register (hsound : r.Sound) (hkeyed : r.Keyed)
    (h : r.register spec parent lens = .ok r') : r'.Sound := by
  constructor
  · intro p c hc
    rw [mem_childrenOf_register hkeyed h] at hc
    rw [contains_register hkeyed h]
    rcases hc with hc | ⟨rfl, -⟩
    · exact .inr (hsound.live p c ((r.spared_sublist spec p).subset hc))
    · exact .inl rfl
  · intro p
    cases hp : r'.contains p with
    | false => rw [childrenOf_eq_nil hp]; exact List.nodup_nil
    | true =>
      rw [childrenOf_register hkeyed h hp]
      exact nodup_withAdopted ((hsound.nodup p).sublist (r.spared_sublist spec p))

theorem Sound.collectGarbage (hsound : r.Sound) : r.collectGarbage.2.Sound := by
  constructor
  · intro p c hc
    have hp := contains_of_mem_childrenOf hc
    rw [childrenOf_collectGarbage hp] at hc
    have hlive := hsound.live p c hc
    exact contains_collectGarbage.2
      ⟨mem_reachable_of_child (contains_collectGarbage.1 hp).1 hc hlive, hlive⟩
  · intro p
    cases hp : r.collectGarbage.2.contains p with
    | false => rw [childrenOf_eq_nil hp]; exact List.nodup_nil
    | true => rw [childrenOf_collectGarbage hp]; exact hsound.nodup p

/-- **What every history keeps.**  A list of children holds registered elements, each of them
once. -/
theorem Reached.sound (h : r.Reached) : r.Sound := by
  induction h with
  | empty => exact ⟨fun p c hc => (List.not_mem_nil hc).elim, fun p => List.nodup_nil⟩
  | register hr h hacyclic ih => exact ih.register hr.keyed h
  | setValue hr h ih => exact ih.congr (alike_setValue h)
  | bind hr name id ih => exact ⟨ih.live, ih.nodup⟩
  | unbind hr name ih => exact ⟨ih.live, ih.nodup⟩
  | collectGarbage hr ih => exact ih.collectGarbage

end ElementRegistry

end Notebook
