/-
  Notebook.Proofs.Element.Mirror — when the lists of children mirror the parents.

  An element names the composite it was registered under, and that composite lists it.  The two
  would mirror each other in every registry if registering always gave up the old place.  It does so
  only for an element that starts anew:

    * an element that is built again unchanged under another composite stays in the list of the
      first one, so two composites own it,
    * a composite that starts anew, or that was evicted and comes back, has an empty list while the
      elements that were registered under it still name it.

  Nothing else breaks the mirror: a history keeps it throughout exactly when no registration in it is
  of either kind (`ElementRegistry.FitsIn`).

  Main results:
    * `ElementRegistry.mirrored_perform_iff` — one operation,
    * `ElementRegistry.mirrored_throughout_iff` — whole histories,
    * `ElementRegistry.rebuilt_elsewhere_is_owned_twice` — the smallest history that breaks it.
-/
import Notebook.Proofs.Element.Children

namespace Notebook

namespace ElementRegistry

variable {r r' : ElementRegistry} {c p : ElementId} {spec : ElementSpec}
  {parent : Option ElementId} {lens : Lens}

/-! ## §1. The mirror. -/

/-- Parents and lists of children mirror each other: among registered elements, the children of
`p` are those whose parent is `p`, and each is listed once. -/
def Mirrored (r : ElementRegistry) : Prop :=
  ∀ c p, r.contains c = true → r.contains p = true →
    (c ∈ r.childrenOf p ↔ r.parent? c = some p) ∧ (r.childrenOf p).count c ≤ 1

/-- The parent of an element, where the composite it was registered under is still there. -/
theorem parent?_eq_some_iff (hp : r.contains p = true) :
    r.parent? c = some p ↔ ∃ f, r.fixture? c = some f ∧ f.parent = some p := by
  rw [parent?, Option.filter_eq_some_iff, and_iff_left hp, fixture?]
  cases r.get? c with
  | none => simp
  | some e => simp

/-- A list without repetitions is all that is needed besides. -/
theorem Sound.mirrored_iff (hsound : r.Sound) :
    r.Mirrored ↔ ∀ c p, r.contains c = true → r.contains p = true →
      (c ∈ r.childrenOf p ↔ r.parent? c = some p) :=
  forall₄_congr fun _ p _ _ =>
    and_iff_left (List.nodup_iff_count_le_one.1 (hsound.nodup p) _)

/-- An element is in no list but that of its parent, so at most one composite owns it. -/
theorem Mirrored.owner_unique (h : r.Mirrored) (hc : r.contains c = true) {q : ElementId}
    (hp : c ∈ r.childrenOf p) (hq : c ∈ r.childrenOf q) : p = q := by
  have hparent := (h c p hc (contains_of_mem_childrenOf hp)).1.1 hp
  have hparent' := (h c q hc (contains_of_mem_childrenOf hq)).1.1 hq
  exact Option.some.inj (hparent.symm.trans hparent')

theorem Mirrored.congr (h : r.Mirrored) (halike : Alike r r') : r'.Mirrored := by
  intro c p hc hp
  rw [halike.contains] at hc hp
  have hp' : r'.contains p = true := by rwa [halike.contains]
  rw [parent?_eq_some_iff hp', halike.fixture, halike.children, ← parent?_eq_some_iff hp]
  exact h c p hc hp

theorem Mirrored.collectGarbage (h : r.Mirrored) : r.collectGarbage.2.Mirrored := by
  intro c p hc hp
  rw [parent?_eq_some_iff hp, fixture?_collectGarbage hc, childrenOf_collectGarbage hp]
  have hc' := (contains_collectGarbage.1 hc).2
  have hp' := (contains_collectGarbage.1 hp).2
  rw [← parent?_eq_some_iff hp']
  exact h c p hc' hp'

/-! ## §2. Registering. -/

/-- A registration that gives the element one place only. -/
structure FitsIn (r : ElementRegistry) (spec : ElementSpec) (parent : Option ElementId) : Prop where
  /-- An element that is built again unchanged is registered where it is. -/
  stays : r.rebuilds spec = true → ∀ p ∈ r.parent? spec.id, parent = some p
  /-- No registered element names one that starts anew as its parent. -/
  unclaimed : r.rebuilds spec = false → ∀ e ∈ r.elements.values, e.parent ≠ some spec.id

instance (r : ElementRegistry) (spec : ElementSpec) (parent : Option ElementId) :
    Decidable (r.FitsIn spec parent) :=
  decidable_of_iff
    ((r.rebuilds spec = true → ∀ p ∈ r.parent? spec.id, parent = some p) ∧
      (r.rebuilds spec = false → ∀ e ∈ r.elements.values, e.parent ≠ some spec.id))
    ⟨fun h => ⟨h.1, h.2⟩, fun h => ⟨h.stays, h.unclaimed⟩⟩

theorem FitsIn.not_claimed (h : r.FitsIn spec parent) (hnew : r.rebuilds spec = false)
    {f : Fixture} (hf : r.fixture? c = some f) : f.parent ≠ some spec.id := by
  obtain ⟨e, he, rfl⟩ := Option.map_eq_some_iff.1 hf
  exact h.unclaimed hnew e (mem_values he)

theorem exists_get?_of_mem_values {e : Element} (he : e ∈ r.elements.values) :
    ∃ x, r.get? x = some e := by
  obtain ⟨⟨x, e⟩, hmem, rfl⟩ := List.mem_map.1 he
  exact ⟨x, (Table.get?_eq_some_iff r.elements).2 hmem⟩

/-- No element is its own parent. -/
theorem Acyclic.parent?_ne (h : r.Acyclic) : r.parent? c ≠ some c := by
  intro hself
  rw [parent?, Option.filter_eq_some_iff] at hself
  obtain ⟨e, he, hparent⟩ := Option.bind_eq_some_iff.1 hself.1
  exact h c (.single (isParent_of_get? he hparent he))

/-- The list of the element itself. -/
theorem Mirrored.mem_spared_self (hmirrored : r.Mirrored) (hc : r.contains c = true) :
    c ∈ r.spared spec spec.id ↔ r.rebuilds spec = true ∧ r.parent? c = some spec.id := by
  rw [ElementRegistry.mem_spared_self]
  exact and_congr_right fun hrebuilt => (hmirrored c spec.id hc (contains_of_rebuilds hrebuilt)).1

/-- The list that the element was in has it still if it was built again unchanged. -/
theorem Mirrored.self_mem_spared (hmirrored : r.Mirrored) (hsound : r.Sound) (hp : p ≠ spec.id)
    (hlive : r.contains p = true) :
    spec.id ∈ r.spared spec p ↔ r.rebuilds spec = true ∧ r.parent? spec.id = some p := by
  have hparent : (r.get? spec.id).bind Element.parent = some p ↔ r.parent? spec.id = some p := by
    rw [parent?, Option.filter_eq_some_iff, and_iff_left hlive]
  rw [mem_spared_of_ne hp, and_iff_right rfl, hparent]
  cases hrebuilt : r.rebuilds spec with
  | true =>
    rw [(hmirrored _ p (contains_of_rebuilds hrebuilt) hlive).1]
    simp
  | false =>
    simp only [true_and, Bool.false_eq_true, false_and, iff_false, not_and_not_right]
    exact fun hmem => (hmirrored _ p (hsound.live _ _ hmem) hlive).1.1 hmem

/-- The parents after registering. -/
theorem parent?_register (hkeyed : r.Keyed) (h : r.register spec parent lens = .ok r')
    (hp : r'.contains p = true) : r'.parent? c = some p ↔
      if c = spec.id then parent = some p else ∃ f, r.fixture? c = some f ∧ f.parent = some p := by
  rw [parent?_eq_some_iff hp, fixture?_register hkeyed h]
  split
  · simp
  · rfl

/-- If the mirror is kept, then the element fitted in. -/
theorem Mirrored.fitsIn (hkeyed : r.Keyed) (hsound : r.Sound) (hacyclic : r.Acyclic)
    (hmirrored : r.Mirrored) (h : r.register spec parent lens = .ok r') (hafter : r'.Mirrored) :
    r.FitsIn spec parent := by
  have hself : r'.contains spec.id = true := (contains_register hkeyed h).2 (.inl rfl)
  have hold : ∀ {x}, r.contains x = true → r'.contains x = true :=
    fun hx => (contains_register hkeyed h).2 (.inr hx)
  refine ⟨fun hrebuilt p hp => ?_, fun hnew e he hparent => ?_⟩
  · -- the composite that it was in lists it still
    have hlive : r.contains p = true := (Option.filter_eq_some_iff.1 hp).2
    have hne : p ≠ spec.id := fun heq => hacyclic.parent?_ne (heq ▸ hp)
    have hlisted := (mem_childrenOf_register hkeyed h).2
      (.inl ((hmirrored.self_mem_spared hsound hne hlive).2 ⟨hrebuilt, hp⟩))
    have hparent := (hafter _ _ hself (hold hlive)).1.1 hlisted
    rwa [parent?_register hkeyed h (hold hlive), if_pos rfl] at hparent
  · -- it comes with no list, so nothing can name it
    obtain ⟨c, hget⟩ := exists_get?_of_mem_values he
    have hlive := contains_of_get? hget
    have hne : c ≠ spec.id := by
      intro heq
      subst heq
      exact hacyclic.parent?_ne ((parent?_eq_some_iff hlive).2 ⟨_, fixture?_eq_some hget, hparent⟩)
    have hnamed : r'.parent? c = some spec.id := by
      rw [parent?_register hkeyed h hself, if_neg hne]
      exact ⟨_, fixture?_eq_some hget, hparent⟩
    have hlisted := (hafter c _ (hold hlive) hself).1.2 hnamed
    rw [mem_childrenOf_register hkeyed h, hmirrored.mem_spared_self hlive, hnew] at hlisted
    exact hlisted.elim (fun hlisted => nomatch hlisted.1) fun hlisted => hne hlisted.1

/-- An element that fits in is listed by its new parent only. -/
theorem FitsIn.mirrored_self (hfits : r.FitsIn spec parent) (hkeyed : r.Keyed) (hsound : r.Sound)
    (hacyclic : r.Acyclic) (hmirrored : r.Mirrored) (h : r.register spec parent lens = .ok r')
    (hp : r'.contains p = true) :
    spec.id ∈ r'.childrenOf p ↔ r'.parent? spec.id = some p := by
  rw [mem_childrenOf_register hkeyed h, parent?_register hkeyed h hp, if_pos rfl,
    and_iff_right rfl, or_iff_right_iff_imp]
  intro hmem
  by_cases hpid : p = spec.id
  · -- it was not in its own list
    subst hpid
    have hlive : r.contains spec.id = true :=
      hsound.live _ _ ((r.spared_sublist spec spec.id).subset hmem)
    exact absurd ((hmirrored.mem_spared_self hlive).1 hmem).2 hacyclic.parent?_ne
  · have hlive := ((contains_register hkeyed h).1 hp).resolve_left hpid
    have hplace := (hmirrored.self_mem_spared hsound hpid hlive).1 hmem
    exact hfits.stays hplace.1 p hplace.2

/-- When an element fits in, the others are listed by their parents as before. -/
theorem FitsIn.mirrored_other (hfits : r.FitsIn spec parent) (hkeyed : r.Keyed)
    (hmirrored : r.Mirrored) (h : r.register spec parent lens = .ok r')
    (hc : r'.contains c = true) (hp : r'.contains p = true) (hcid : c ≠ spec.id) :
    c ∈ r'.childrenOf p ↔ r'.parent? c = some p := by
  have hlive := ((contains_register hkeyed h).1 hc).resolve_left hcid
  rw [mem_childrenOf_register hkeyed h, parent?_register hkeyed h hp, if_neg hcid,
    or_iff_left fun hadopted => hcid hadopted.1]
  by_cases hpid : p = spec.id
  · subst hpid
    rw [hmirrored.mem_spared_self hlive]
    constructor
    · rintro ⟨hrebuilt, hparent⟩
      exact (parent?_eq_some_iff (contains_of_rebuilds hrebuilt)).1 hparent
    · rintro ⟨f, hf, hparent⟩
      cases hrebuilt : r.rebuilds spec with
      | true =>
        exact ⟨rfl, (parent?_eq_some_iff (contains_of_rebuilds hrebuilt)).2 ⟨f, hf, hparent⟩⟩
      | false => exact absurd hparent (hfits.not_claimed hrebuilt hf)
  · have hplive := ((contains_register hkeyed h).1 hp).resolve_left hpid
    rw [mem_spared_of_ne hpid, and_iff_left fun hown => hcid hown.1, ← parent?_eq_some_iff hplive]
    exact (hmirrored c p hlive hplive).1

/-- **Registering keeps the mirror exactly when the element fits in.** -/
theorem mirrored_register_iff (hkeyed : r.Keyed) (hsound : r.Sound) (hacyclic : r.Acyclic)
    (hmirrored : r.Mirrored) (h : r.register spec parent lens = .ok r') :
    r'.Mirrored ↔ r.FitsIn spec parent := by
  refine ⟨hmirrored.fitsIn hkeyed hsound hacyclic h, fun hfits => ?_⟩
  rw [(hsound.register hkeyed h).mirrored_iff]
  intro c p hc hp
  by_cases hcid : c = spec.id
  · subst hcid
    exact hfits.mirrored_self hkeyed hsound hacyclic hmirrored h hp
  · exact hfits.mirrored_other hkeyed hmirrored h hc hp hcid

/-! ## §3. Histories. -/

/-- An operation on a registry. -/
inductive Operation where
  | register (spec : ElementSpec) (parent : Option ElementId) (lens : Lens)
  | setValue (id : ElementId) (value : Json)
  | bind (name : String) (id : ElementId)
  | unbind (name : String)
  | collectGarbage

/-- What an operation leaves; one that fails leaves the registry as it was. -/
def perform (r : ElementRegistry) : Operation → ElementRegistry
  | .register spec parent lens =>
    match r.register spec parent lens with
    | .ok r' => r'
    | .error _ => r
  | .setValue id value =>
    match r.setValue id value with
    | .ok (_, r') => r'
    | .error _ => r
  | .bind name id => r.bind name id
  | .unbind name => r.unbind name
  | .collectGarbage => r.collectGarbage.2

/-- What operations leave of the empty registry. -/
def performAll (ops : List Operation) : ElementRegistry := ops.foldl perform {}

/-- The operation does not register an element that does not fit in. -/
def Tidy (r : ElementRegistry) : Operation → Prop
  | .register spec parent lens =>
    (r.register spec parent lens).isOk → r.FitsIn spec parent
  | .setValue _ _ => True
  | .bind _ _ => True
  | .unbind _ => True
  | .collectGarbage => True

instance (r : ElementRegistry) (op : Operation) : Decidable (r.Tidy op) := by
  cases op <;> unfold Tidy <;> infer_instance

theorem performAll_concat (ops : List Operation) (op : Operation) :
    performAll (ops ++ [op]) = (performAll ops).perform op := by
  rw [performAll, List.foldl_concat]
  rfl

theorem Reached.perform (hr : r.Reached) {op : Operation} (hacyclic : (r.perform op).Acyclic) :
    (r.perform op).Reached := by
  cases op with
  | register spec parent lens =>
    simp only [ElementRegistry.perform] at hacyclic ⊢
    split at hacyclic
    · exact hr.register ‹_› hacyclic
    · exact hr
  | setValue id value =>
    simp only [ElementRegistry.perform]
    split
    · exact hr.setValue ‹_›
    · exact hr
  | bind name id => exact hr.bind name id
  | unbind name => exact hr.unbind name
  | collectGarbage => exact hr.collectGarbage

/-- **One operation.**  It keeps the mirror exactly when it is tidy. -/
theorem mirrored_perform_iff (hr : r.Reached) (hmirrored : r.Mirrored) (op : Operation) :
    (r.perform op).Mirrored ↔ r.Tidy op := by
  cases op with
  | register spec parent lens =>
    simp only [perform, Tidy]
    cases hregister : r.register spec parent lens with
    | ok r' =>
      rw [Except.isOk, Except.toBool, forall_prop_of_true rfl]
      exact mirrored_register_iff hr.keyed hr.sound hr.acyclic hmirrored hregister
    | error err => exact iff_of_true hmirrored fun hok => nomatch hok
  | setValue id value =>
    refine iff_of_true ?_ trivial
    simp only [perform]
    split
    · exact hmirrored.congr (alike_setValue ‹_›)
    · exact hmirrored
  | bind name id => exact iff_of_true hmirrored trivial
  | unbind name => exact iff_of_true hmirrored trivial
  | collectGarbage => exact iff_of_true hmirrored.collectGarbage trivial

/-- What holds of every step of a list holds of each of its members, after those before it. -/
theorem forall_steps_iff {α : Type} {l : List α} {s : List α → α → Prop} :
    (∀ done a, done ++ [a] <+: l → s done a) ↔ ∀ n < l.length, ∀ a ∈ l[n]?, s (l.take n) a := by
  constructor
  · intro hall n _ a ha
    refine hall _ a ?_
    have htake : l.take (n + 1) = l.take n ++ [a] := by rw [List.take_add_one, ha]; rfl
    exact htake ▸ List.take_prefix _ _
  · rintro hall done a ⟨rest, rfl⟩
    simpa using hall done.length (by simp) a (by simp)

variable {ops : List Operation}

/-- Histories reach registries, if no element becomes its own ancestor. -/
theorem reached_performAll (hacyclic : ∀ done, done <+: ops → (performAll done).Acyclic) :
    (performAll ops).Reached := by
  induction ops using List.reverseRecOn with
  | nil => exact .empty
  | append_singleton ops op ih =>
    have hwhole := hacyclic _ (List.prefix_refl _)
    rw [performAll_concat] at hwhole ⊢
    exact (ih fun done hdone => hacyclic done (hdone.trans (List.prefix_append _ _))).perform hwhole

theorem mirrored_empty : (performAll []).Mirrored := fun _ _ hc => nomatch hc

/-- A history of tidy operations keeps the mirror. -/
theorem mirrored_performAll (hacyclic : ∀ done, done <+: ops → (performAll done).Acyclic)
    (htidy : ∀ done op, done ++ [op] <+: ops → (performAll done).Tidy op) :
    (performAll ops).Mirrored := by
  induction ops using List.reverseRecOn with
  | nil => exact mirrored_empty
  | append_singleton ops op ih =>
    have hshorter : ∀ {done}, done <+: ops → done <+: ops ++ [op] :=
      fun hdone => hdone.trans (List.prefix_append _ _)
    have hacyclic' := fun done hdone => hacyclic done (hshorter hdone)
    have hops := ih hacyclic' fun done op hdone => htidy done op (hshorter hdone)
    rw [performAll_concat, mirrored_perform_iff (reached_performAll hacyclic') hops]
    exact htidy ops op (List.prefix_refl _)

/-- **Whole histories.**  At every point of a history in which no element becomes its own ancestor,
the lists of children hold registered elements, each of them once.  They mirror the parents
throughout exactly when every registration gives its element one place only: what is built again
unchanged stays where it is, and what starts anew is not yet named as a parent. -/
theorem mirrored_throughout_iff (hacyclic : ∀ done, done <+: ops → (performAll done).Acyclic) :
    (∀ done, done <+: ops → (performAll done).Sound) ∧
      ((∀ done, done <+: ops → (performAll done).Mirrored) ↔
        ∀ done op, done ++ [op] <+: ops → (performAll done).Tidy op) := by
  have hearlier : ∀ {done}, done <+: ops → ∀ first, first <+: done → (performAll first).Acyclic :=
    fun hdone first hfirst => hacyclic first (hfirst.trans hdone)
  refine ⟨fun done hdone => (reached_performAll (hearlier hdone)).sound, ?_, ?_⟩
  · intro hmirrored done op hnext
    have hdone : done <+: ops := (List.prefix_append done [op]).trans hnext
    rw [← mirrored_perform_iff (reached_performAll (hearlier hdone)) (hmirrored done hdone),
      ← performAll_concat]
    exact hmirrored _ hnext
  · intro htidy done hdone
    exact mirrored_performAll (hearlier hdone) fun first op hfirst =>
      htidy first op (hfirst.trans hdone)

/-! ## §4. Two arrays. -/

/-- No element is its own ancestor if parents have smaller ranks. -/
theorem acyclic_of_rank (rank : ElementId → Nat)
    (hrank : ∀ entry ∈ r.elements.entries, ∀ p ∈ entry.2.parent, rank p < rank entry.1) :
    r.Acyclic := by
  have hless : ∀ {c p}, Relation.TransGen r.IsParent c p → rank p < rank c := by
    intro c p hway
    have hstep : ∀ {c p}, r.IsParent c p → rank p < rank c := by
      rintro c p ⟨k, hk, hparent, -⟩
      obtain ⟨e, he, rfl⟩ := Option.map_eq_some_iff.1 hk
      exact hrank (c, e) ((Table.get?_eq_some_iff r.elements).1 he) p hparent
    induction hway with
    | single h => exact hstep h
    | tail _ h ih => exact (hstep h).trans ih
  exact fun id hcycle => Nat.lt_irrefl _ (hless hcycle)

/-- An element of which only the name and the kind matter. -/
def plainSpec (name : String) (kind : ElementKind) : ElementSpec := ⟨⟨name⟩, kind, .null, ⟨[]⟩, ⟨0⟩⟩

/-- Registers an element `x` under an array `a`. -/
def placedInArray : List Operation :=
  [.register (plainSpec "a" .array) none .identity,
    .register (plainSpec "b" .array) none .identity,
    .register (plainSpec "x" (.leaf "slider")) (some ⟨"a"⟩) (.index 0)]

/-- Then gives it a value and builds it again under the same array. -/
def rebuiltInPlace : List Operation :=
  placedInArray ++ [.setValue ⟨"x"⟩ (.int 5),
    .register (plainSpec "x" (.leaf "slider")) (some ⟨"a"⟩) (.index 1), .unbind "n"]

/-- Arrays stand above everything else. -/
def belowArrays (id : ElementId) : Nat := if id = ⟨"x"⟩ then 1 else 0

theorem rebuiltInPlace_mirrored :
    (performAll rebuiltInPlace).Sound ∧ (performAll rebuiltInPlace).Mirrored := by
  have hwhole := List.prefix_refl rebuiltInPlace
  have hacyclic : ∀ done, done <+: rebuiltInPlace → (performAll done).Acyclic := by
    refine fun done hdone => acyclic_of_rank belowArrays ?_
    revert done
    simp only [← List.mem_inits]
    decide
  obtain ⟨hsound, hmirrored⟩ := mirrored_throughout_iff hacyclic
  exact ⟨hsound _ hwhole, hmirrored.2 (forall_steps_iff.2 (by decide)) _ hwhole⟩

/-- Builds it again under the other array. -/
def rebuiltElsewhere : List Operation :=
  placedInArray ++ [.register (plainSpec "x" (.leaf "slider")) (some ⟨"b"⟩) (.index 0)]

/-- **The smallest history that breaks the mirror.**  Both arrays list the element. -/
theorem rebuilt_elsewhere_is_owned_twice : ¬ ∀ r : ElementRegistry, r.Reached → r.Mirrored := by
  intro hall
  have hreached : (performAll rebuiltElsewhere).Reached := by
    refine reached_performAll fun done hdone => acyclic_of_rank belowArrays ?_
    revert done
    simp only [← List.mem_inits]
    decide
  have howner := (hall _ hreached).owner_unique (c := ⟨"x"⟩) (p := ⟨"a"⟩) (q := ⟨"b"⟩)
    (by decide) (by decide) (by decide)
  exact absurd howner (by decide)

end ElementRegistry

end Notebook
