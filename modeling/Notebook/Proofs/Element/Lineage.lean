/-
  Notebook.Proofs.Element.Lineage — the way from an element up to its root, and writes along it.

  Elements are linked to their parents by identifiers.  Where no element is its own ancestor the
  links lead from every element up to a root (`ElementRegistry.Up`), and the registry is large
  enough for every such way.  A new value of an element is written into the copies that its
  ancestors hold; every other element keeps its value.

  A new value replaces what the root holds at the element's position exactly when the copies on the
  way agree, beside that position, with what the root holds (`CopiesAgree`).

  Main results:
    * `ElementRegistry.lineage_eq` — the way that is climbed leads up to the root,
    * `ElementRegistry.value?_writeThrough_of_written`, `…_of_not_written` — which values a write
      changes, and how,
    * `replaced_topValue_iff` — when a write replaces one position of the root's value.
-/
import Mathlib.Data.Set.Finite.List
import Mathlib.Order.WellFounded
import Mathlib.Order.RelClasses
import Notebook.Element.Walk
import Notebook.Proofs.Element.Positions

namespace Notebook

/-! ## §1. Values along a way. -/

/-- The lenses from the root down to the first element of a way up. -/
def pathTo : List Element → List Lens
  | [] => []
  | [_] => []
  | e :: parent :: rest => pathTo (parent :: rest) ++ [e.lens]

/-- The new value of the last element of a way up. -/
def topValue (value : Json) : List Element → Json
  | [] => value
  | [_] => value
  | e :: parent :: rest => topValue (e.lens.write parent.value value) (parent :: rest)

/-- The copy that each ancestor holds agrees, beside the position of the element below it, with what
the root holds there. -/
def CopiesAgree (old : Json) : List Element → Prop
  | [] => True
  | [_] => True
  | e :: parent :: rest =>
    e.lens.Spares parent.value (readAlong (pathTo (parent :: rest)) old) ∧
      CopiesAgree old (parent :: rest)

/-- The patch nests the value once per lens. -/
theorem patchAlong_eq (patch : Json) (way : List Element) :
    ElementRegistry.patchAlong patch way = wrapAlong (pathTo way) patch := by
  fun_induction ElementRegistry.patchAlong patch way with
  | case1 => rfl
  | case2 => rfl
  | case3 patch e parent rest ih =>
    rw [ih]
    simp [pathTo, wrapAlong]

/-- The new value stands at the position of the element. -/
theorem readAlong_topValue (value : Json) (way : List Element) :
    readAlong (pathTo way) (topValue value way) = value := by
  fun_induction topValue value way with
  | case1 => rfl
  | case2 => rfl
  | case3 value e parent rest ih =>
    rw [pathTo, readAlong_append, ih]
    exact e.lens.read_write parent.value value

/-- **When a write replaces one position of the root's value.** -/
theorem replaced_topValue_iff (old value : Json) (way : List Element) (hway : way ≠ []) :
    Replaced (pathTo way) old (topValue value way) value ↔ CopiesAgree old way := by
  fun_induction topValue value way with
  | case1 => exact absurd rfl hway
  | case2 value e =>
    have hnone : ∀ path', ¬ BesideAlong (pathTo [e]) path' := by
      intro path' hbeside
      cases path' <;> exact hbeside
    exact ⟨fun _ => trivial, fun _ => ⟨rfl, fun path' h => absurd h (hnone path')⟩⟩
  | case3 value e parent rest ih =>
    rw [pathTo, CopiesAgree, replaced_concat_iff (readAlong_topValue _ _),
      ih (List.cons_ne_nil _ _), and_comm]

namespace ElementRegistry

variable {r r' : ElementRegistry} {id child parent x : ElementId} {e : Element}
  {way : List Element} {v w : Json}

/-! ## §2. Links. -/

/-- What of an element says where it is. -/
structure Link where
  id : ElementId
  parent : Option ElementId
  lens : Lens

/-- Where an element is. -/
def link? (r : ElementRegistry) (id : ElementId) : Option Link :=
  (r.get? id).map fun e => ⟨e.id, e.parent, e.lens⟩

theorem link?_eq_some (h : r.get? id = some e) : r.link? id = some ⟨e.id, e.parent, e.lens⟩ := by
  rw [link?, h, Option.map_some]

theorem exists_get?_of_link? (h : (r.link? x).isSome) : ∃ e, r.get? x = some e := by
  rw [link?, Option.isSome_map] at h
  exact Option.isSome_iff_exists.1 h

theorem value?_eq_some (h : r.get? id = some e) : r.value? id = some e.value := by
  rw [value?, h, Option.map_some]

theorem get?_update (r : ElementRegistry) (id : ElementId) (f : Element → Element)
    (x : ElementId) : (r.update id f).get? x = if x = id then (r.get? x).map f else r.get? x :=
  Table.get?_modify r.elements id f x

/-- A change that does not concern where the element is. -/
theorem link?_update (r : ElementRegistry) (id : ElementId) {f : Element → Element}
    (hf : ∀ e, (f e).id = e.id ∧ (f e).parent = e.parent ∧ (f e).lens = e.lens) :
    (r.update id f).link? = r.link? := by
  funext x
  rw [link?, get?_update]
  split
  · rw [Option.map_map, link?]
    congr 1
    funext e
    show Link.mk (f e).id (f e).parent (f e).lens = _
    rw [(hf e).1, (hf e).2.1, (hf e).2.2]
  · rfl

/-- A change that does not concern the value. -/
theorem value?_update (r : ElementRegistry) (id : ElementId) {f : Element → Element}
    (hf : ∀ e, (f e).value = e.value) : (r.update id f).value? = r.value? := by
  funext x
  rw [value?, get?_update]
  split
  · rw [Option.map_map, value?]
    congr 1
    exact funext hf
  · rfl

/-- Elements stand under their own identifiers. -/
def Keyed (r : ElementRegistry) : Prop := ∀ id k, r.link? id = some k → k.id = id

/-- The one element is registered under the other, and both are there. -/
def IsParent (r : ElementRegistry) (child parent : ElementId) : Prop :=
  ∃ k, r.link? child = some k ∧ k.parent = some parent ∧ (r.link? parent).isSome

/-- No element is its own ancestor. -/
def Acyclic (r : ElementRegistry) : Prop := ∀ id, ¬ Relation.TransGen r.IsParent id id

theorem isParent_of_get? {p : Element} (he : r.get? child = some e)
    (hparent : e.parent = some parent) (hp : r.get? parent = some p) : r.IsParent child parent :=
  ⟨_, link?_eq_some he, hparent, by rw [link?_eq_some hp]; rfl⟩

/-- An element has one parent. -/
theorem IsParent.unique {p q : ElementId} (hp : r.IsParent child p) (hq : r.IsParent child q) :
    p = q := by
  obtain ⟨k, hk, hparent, -⟩ := hp
  obtain ⟨k', hk', hparent', -⟩ := hq
  obtain rfl := Option.some.inj (hk.symm.trans hk')
  exact Option.some.inj (hparent.symm.trans hparent')

theorem Keyed.id_eq (h : r.Keyed) (he : r.get? id = some e) : e.id = id :=
  h id _ (link?_eq_some he)

/-- With fewer links there are no new cycles. -/
theorem Acyclic.mono (h : r.Acyclic) (hsub : ∀ child parent, r'.IsParent child parent →
    r.IsParent child parent) : r'.Acyclic :=
  fun id hcycle => h id (Relation.TransGen.mono hsub id id hcycle)

theorem Acyclic.congr (h : r.Acyclic) (hlinks : r'.link? = r.link?) : r'.Acyclic := by
  refine h.mono fun child parent hparent => ?_
  unfold IsParent at hparent ⊢
  rwa [hlinks] at hparent

theorem Keyed.congr (h : r.Keyed) (hlinks : r'.link? = r.link?) : r'.Keyed := by
  unfold Keyed
  rw [hlinks]
  exact h

/-! ## §3. The way up. -/

/-- The way up from an element: the element, then its parent, and so on up to an element whose
parent is not there. -/
inductive Up (r : ElementRegistry) : ElementId → List Element → Prop
  | root {id : ElementId} {e : Element} (he : r.get? id = some e)
      (htop : ∀ p, e.parent = some p → r.get? p = none) : Up r id [e]
  | under {id p : ElementId} {e : Element} {way : List Element} (he : r.get? id = some e)
      (hp : e.parent = some p) (hrest : Up r p way) : Up r id (e :: way)

namespace Up

theorem head (h : r.Up id way) : ∃ e rest, way = e :: rest ∧ r.get? id = some e := by
  cases h with
  | root he htop => exact ⟨_, _, rfl, he⟩
  | under he hp hrest => exact ⟨_, _, rfl, he⟩

theorem ne_nil (h : r.Up id way) : way ≠ [] := by
  obtain ⟨e, rest, rfl, -⟩ := h.head
  exact List.cons_ne_nil _ _

/-- On the way are registered elements: the first one, and its ancestors. -/
theorem mem (h : r.Up id way) (hkeyed : r.Keyed) (he : e ∈ way) :
    r.get? e.id = some e ∧ (e.id = id ∨ Relation.TransGen r.IsParent id e.id) := by
  induction h with
  | root hget htop =>
    obtain rfl := List.mem_singleton.1 he
    have hid := hkeyed.id_eq hget
    exact ⟨hid ▸ hget, .inl hid⟩
  | under hget hp hrest ih =>
    rcases List.mem_cons.1 he with rfl | he
    · have hid := hkeyed.id_eq hget
      exact ⟨hid ▸ hget, .inl hid⟩
    · obtain ⟨p, rest, -, hparent⟩ := hrest.head
      have hstep := isParent_of_get? hget hp hparent
      obtain ⟨hfound, heq | habove⟩ := ih he
      · exact ⟨hfound, .inr (heq ▸ .single hstep)⟩
      · exact ⟨hfound, .inr (.head hstep habove)⟩

/-- No element is on the way twice. -/
theorem nodup (h : r.Up id way) (hkeyed : r.Keyed) (hacyclic : r.Acyclic) :
    (way.map Element.id).Nodup := by
  induction h with
  | root => exact List.nodup_singleton _
  | @under id p e way hget hp hrest ih =>
    refine List.nodup_cons.2 ⟨fun hmem => ?_, ih⟩
    obtain ⟨a, ha, heq⟩ := List.mem_map.1 hmem
    obtain ⟨q, rest, -, hparent⟩ := hrest.head
    have hstep := isParent_of_get? hget hp hparent
    rw [hkeyed.id_eq hget] at heq
    -- an element on the rest of the way is an ancestor
    rcases (hrest.mem hkeyed ha).2 with hid | habove
    · exact hacyclic id (.single (hid.symm.trans heq ▸ hstep))
    · exact hacyclic id (.head hstep (heq ▸ habove))

/-- The way is not longer than the registry. -/
theorem length_le (h : r.Up id way) (hkeyed : r.Keyed) (hacyclic : r.Acyclic) :
    way.length ≤ r.elements.size := by
  have hsub : way.map Element.id ⊆ r.elements.keys := by
    intro a ha
    obtain ⟨e, he, rfl⟩ := List.mem_map.1 ha
    exact mem_keys (h.mem hkeyed he).1
  have hle := ((h.nodup hkeyed hacyclic).subperm hsub).length_le
  rwa [List.length_map, Table.keys, List.length_map] at hle

/-- With room for it the way is climbed. -/
theorem climb_eq (h : r.Up id way) {steps : Nat} (hsteps : way.length ≤ steps) :
    r.climb steps id = way := by
  induction h generalizing steps with
  | @root id e he htop =>
    obtain ⟨steps, rfl⟩ := Nat.exists_eq_add_of_le' hsteps
    cases hparent : e.parent with
    | none => simp [climb, he, hparent]
    | some p => cases steps <;> simp [climb, he, hparent, htop p hparent]
  | @under id p e way he hp hrest ih =>
    cases steps with
    | zero => exact absurd hsteps (Nat.not_succ_le_zero _)
    | succ steps => simp [climb, he, hp, ih (Nat.le_of_succ_le_succ hsteps)]

end Up

/-- Going up ends: there are only so many elements. -/
theorem Acyclic.wellFounded (h : r.Acyclic) :
    WellFounded fun a b : { id // id ∈ r.elements.keys } => Relation.TransGen r.IsParent b a := by
  have : IsTrans { id // id ∈ r.elements.keys }
      fun a b => Relation.TransGen r.IsParent b a := ⟨fun a b c hba hcb => hcb.trans hba⟩
  have : Std.Irrefl fun a b : { id // id ∈ r.elements.keys } =>
      Relation.TransGen r.IsParent b a := ⟨fun a => h a⟩
  have : Finite { id // id ∈ r.elements.keys } := (List.finite_toSet r.elements.keys).to_subtype
  exact Finite.wellFounded_of_trans_of_irrefl _

/-- **From every registered element a way leads up.** -/
theorem Acyclic.exists_up (h : r.Acyclic) (he : r.get? id = some e) : ∃ way, r.Up id way := by
  suffices hall : ∀ a : { id // id ∈ r.elements.keys }, ∃ way, r.Up a way from
    hall ⟨id, mem_keys he⟩
  intro a
  induction a using h.wellFounded.induction with
  | _ a ih =>
    obtain ⟨e, hget⟩ := Option.isSome_iff_exists.1 ((Table.mem_keys_iff _).1 a.2)
    change r.get? a = some e at hget
    cases hparent : e.parent with
    | none =>
      refine ⟨[e], .root hget fun p hp => ?_⟩
      rw [hparent] at hp
      cases hp
    | some p =>
      cases hp : r.get? p with
      | none =>
        refine ⟨[e], .root hget fun q hq => ?_⟩
        rw [hparent] at hq
        rw [← Option.some.inj hq, hp]
      | some ep =>
        obtain ⟨way, hway⟩ := ih ⟨p, mem_keys hp⟩ (.single (isParent_of_get? hget hparent hp))
        exact ⟨e :: way, .under hget hparent hway⟩

/-- **The way that is climbed leads up to the root.** -/
theorem lineage_eq (h : r.Up id way) (hkeyed : r.Keyed) (hacyclic : r.Acyclic) :
    r.lineage id = way :=
  h.climb_eq (h.length_le hkeyed hacyclic)

/-! ## §4. Writes along the way. -/

/-- Where a value is written to when the element `id` is given the value `v`. -/
inductive Written (r : ElementRegistry) (id : ElementId) (v : Json) : ElementId → Json → Prop
  | here : Written r id v id v
  | above {c p : ElementId} {w : Json} {e ep : Element} (hc : Written r id v c w)
      (he : r.get? c = some e) (hparent : e.parent = some p) (hp : r.get? p = some ep) :
      Written r id v p (e.lens.write ep.value w)

/-- A write at the parent belongs to the write at the element. -/
theorem Written.trans (h : r.Written id v parent w) {y : Json} (hx : r.Written parent w x y) :
    r.Written id v x y := by
  induction hx with
  | here => exact h
  | above _ he hparent hp ih => exact ih.above he hparent hp

theorem valuesAlong_head (v : Json) (e : Element) (way : List Element) :
    (e.id, v) ∈ valuesAlong v (e :: way) := by
  cases way <;> exact List.mem_cons_self

/-- The values are for the elements of the way. -/
theorem map_fst_valuesAlong (v : Json) (way : List Element) :
    (valuesAlong v way).map Prod.fst = way.map Element.id := by
  fun_induction valuesAlong v way with
  | case1 => rfl
  | case2 => rfl
  | case3 v e parent rest ih =>
    rw [List.map_cons, ih]
    rfl

/-- The last one is for the root. -/
theorem mem_valuesAlong_topValue (v : Json) {way : List Element} {root : Element}
    (h : way.getLast? = some root) : (root.id, topValue v way) ∈ valuesAlong v way := by
  fun_induction topValue v way with
  | case1 => cases h
  | case2 v e =>
    obtain rfl : e = root := Option.some.inj h
    exact List.mem_cons_self
  | case3 v e parent rest ih =>
    rw [List.getLast?_cons_cons] at h
    exact List.mem_cons_of_mem _ (ih h)

/-- A value for an element is written into its parent, too. -/
theorem Up.valuesAlong_above (h : r.Up id way) (hkeyed : r.Keyed) {v w : Json} {ep : Element}
    (hmem : (child, w) ∈ valuesAlong v way) (he : r.get? child = some e)
    (hparent : e.parent = some parent) (hp : r.get? parent = some ep) :
    (parent, e.lens.write ep.value w) ∈ valuesAlong v way := by
  induction h generalizing v with
  | @root id e₀ hget htop =>
    obtain ⟨rfl, rfl⟩ := Prod.mk.inj (List.mem_singleton.1 hmem)
    rw [hkeyed.id_eq hget, hget] at he
    obtain rfl := Option.some.inj he
    rw [htop parent hparent] at hp
    cases hp
  | @under id q e₀ way hget hq hrest ih =>
    obtain ⟨eq, rest, rfl, hgetq⟩ := hrest.head
    rcases List.mem_cons.1 hmem with heq | hmem
    · -- the first element of the way: its parent is the next one
      obtain ⟨rfl, rfl⟩ := Prod.mk.inj heq
      rw [hkeyed.id_eq hget, hget] at he
      obtain rfl := Option.some.inj he
      rw [hparent] at hq
      obtain rfl := Option.some.inj hq
      rw [hp] at hgetq
      obtain rfl := Option.some.inj hgetq
      have hhead := valuesAlong_head (e₀.lens.write ep.value w) ep rest
      rw [hkeyed.id_eq hp] at hhead
      exact List.mem_cons_of_mem _ hhead
    · exact List.mem_cons_of_mem _ (ih hmem)

/-- The values along the way are what is written. -/
theorem Up.mem_valuesAlong_iff (h : r.Up id way) (hkeyed : r.Keyed) {v : Json} :
    (x, w) ∈ valuesAlong v way ↔ r.Written id v x w := by
  constructor
  · intro hmem
    induction h generalizing v with
    | root hget htop =>
      obtain ⟨rfl, rfl⟩ := Prod.mk.inj (List.mem_singleton.1 hmem)
      rw [hkeyed.id_eq hget]
      exact .here
    | @under id p e way hget hp hrest ih =>
      obtain ⟨ep, rest, rfl, hgetp⟩ := hrest.head
      rcases List.mem_cons.1 hmem with heq | hmem
      · obtain ⟨rfl, rfl⟩ := Prod.mk.inj heq
        rw [hkeyed.id_eq hget]
        exact .here
      · exact (Written.here.above hget hp hgetp).trans (ih hmem)
  · intro hwritten
    induction hwritten with
    | here =>
      obtain ⟨e, rest, rfl, hget⟩ := h.head
      rw [← hkeyed.id_eq hget]
      exact valuesAlong_head v e rest
    | above _ he hparent hp ih => exact h.valuesAlong_above hkeyed ih he hparent hp

/-! ## §5. What a write changes. -/

/-- Gives elements new values, one after the other. -/
def assign (r : ElementRegistry) (values : List (ElementId × Json)) : ElementRegistry :=
  values.foldl (fun r (id, value) => r.update id fun e => { e with value }) r

/-- What `writeThrough` does. -/
theorem writeThrough_eq_assign (h : r.Up id way) (hkeyed : r.Keyed) (hacyclic : r.Acyclic)
    (v : Json) : r.writeThrough id v = r.assign (valuesAlong v way) := by
  rw [← lineage_eq h hkeyed hacyclic]
  rfl

/-- Changing only the value of an element leaves it where it is. -/
theorem link?_assign (r : ElementRegistry) (values : List (ElementId × Json)) :
    (r.assign values).link? = r.link? := by
  induction values generalizing r with
  | nil => rfl
  | cons first values ih =>
    obtain ⟨id, value⟩ := first
    refine (ih (r.update id fun e => { e with value })).trans ?_
    exact link?_update r id fun e => ⟨rfl, rfl, rfl⟩

/-- An element for which there is no new value keeps its own. -/
theorem value?_assign_of_notMem {values : List (ElementId × Json)} (r : ElementRegistry)
    (hx : x ∉ values.map Prod.fst) : (r.assign values).value? x = r.value? x := by
  induction values generalizing r with
  | nil => rfl
  | cons first values ih =>
    obtain ⟨id, value⟩ := first
    rw [List.map_cons, List.mem_cons, not_or] at hx
    obtain ⟨hne, hrest⟩ := hx
    refine (ih (r.update id fun e => { e with value }) hrest).trans ?_
    rw [value?, get?_update, if_neg hne]
    rfl

/-- An element for which there is one new value has it. -/
theorem value?_assign_of_mem {values : List (ElementId × Json)} (r : ElementRegistry)
    (hnodup : (values.map Prod.fst).Nodup) (hmem : (x, w) ∈ values) (hx : (r.get? x).isSome) :
    (r.assign values).value? x = some w := by
  induction values generalizing r with
  | nil => cases hmem
  | cons first values ih =>
    obtain ⟨id, value⟩ := first
    obtain ⟨hnot, hnodup⟩ := List.nodup_cons.1 hnodup
    rcases List.mem_cons.1 hmem with heq | hmem
    · obtain ⟨rfl, rfl⟩ := Prod.mk.inj heq
      refine (value?_assign_of_notMem _ hnot).trans ?_
      obtain ⟨e, he⟩ := Option.isSome_iff_exists.1 hx
      rw [value?, get?_update, if_pos rfl, he]
      rfl
    · refine ih (r.update id fun e => { e with value }) hnodup hmem ?_
      rw [get?_update]
      split
      · rwa [Option.isSome_map]
      · exact hx

theorem link?_writeThrough (r : ElementRegistry) (id : ElementId) (v : Json) :
    (r.writeThrough id v).link? = r.link? :=
  link?_assign r _

/-- **Every element on the way up gets the value that is written there.** -/
theorem value?_writeThrough_of_written (hkeyed : r.Keyed) (hacyclic : r.Acyclic)
    (he : r.get? id = some e) {v : Json} (hx : r.Written id v x w) :
    (r.writeThrough id v).value? x = some w := by
  obtain ⟨way, hway⟩ := hacyclic.exists_up he
  rw [writeThrough_eq_assign hway hkeyed hacyclic]
  refine value?_assign_of_mem r ?_ ((hway.mem_valuesAlong_iff hkeyed).2 hx) ?_
  · rw [map_fst_valuesAlong]
    exact hway.nodup hkeyed hacyclic
  · cases hx with
    | here => rw [he]; rfl
    | above _ _ _ hp => rw [hp]; rfl

/-- **Every other element keeps its value.** -/
theorem value?_writeThrough_of_not_written (hkeyed : r.Keyed) (hacyclic : r.Acyclic)
    (he : r.get? id = some e) {v : Json} (hx : ∀ w, ¬ r.Written id v x w) :
    (r.writeThrough id v).value? x = r.value? x := by
  obtain ⟨way, hway⟩ := hacyclic.exists_up he
  rw [writeThrough_eq_assign hway hkeyed hacyclic]
  refine value?_assign_of_notMem r fun hmem => ?_
  obtain ⟨⟨y, w⟩, hpair, rfl⟩ := List.mem_map.1 hmem
  exact hx w ((hway.mem_valuesAlong_iff hkeyed).1 hpair)

end ElementRegistry

end Notebook
