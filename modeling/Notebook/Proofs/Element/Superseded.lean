/-
  Notebook.Proofs.Element.Superseded — values that a later one supersedes leave no trace.

  Of several queued values for one element only the last is written.  The others would have been
  written through the ancestors, too, where they may fill up arrays and turn plain values into
  containers, and the values of other elements would then have been written into these.  All that
  such a value leaves behind stands at the position of the element, though, in each of its
  ancestors: whatever is written beside it, the two histories of an ancestor's value stay equal but
  for that position (`Lens.AgreeBut`), and the last value for the element makes them equal.

  This needs siblings whose writes do not disturb each other.  A place and a key do: a key written
  into an array makes an object of it.

  Main results:
    * `Lens.write_write`, `Lens.write_comm` — two writes into one value,
    * `ElementRegistry.SameBut.writeThrough` — what a write keeps of two registries that differ by
      what a value of one element has left,
    * `ElementRegistry.foldl_receive_coalesce` — events whose superseded values are dropped.
-/
import Notebook.Kernel.Event
import Notebook.Proofs.Element.Children

namespace Notebook

/-! ## §1. Two writes into a list. -/

namespace Entries

variable {κ ν : Type} [Ord κ] [Std.LawfulEqOrd κ]

/-- The second of two values under one key counts. -/
theorem insert_insert (key : κ) (u v : ν) (entries : List (κ × ν)) :
    insert key v (insert key u entries) = insert key v entries := by
  induction entries with
  | nil => simp [insert]
  | cons head rest ih =>
    obtain ⟨k, w⟩ := head
    cases hk : compare key k <;> simp [insert, hk, ih]

variable [Std.TransOrd κ]

theorem insert_comm_of_lt {a b : κ} (h : compare a b = .lt) (u v : ν) (entries : List (κ × ν)) :
    insert a u (insert b v entries) = insert b v (insert a u entries) := by
  have hgt : compare b a = .gt := Std.OrientedCmp.gt_iff_lt.2 h
  induction entries with
  | nil => simp [insert, h, hgt]
  | cons head rest ih =>
    obtain ⟨k, w⟩ := head
    cases ha : compare a k with
    | lt => cases hb : compare b k <;> simp [insert, ha, hb, h, hgt]
    | eq =>
      obtain rfl := Std.LawfulEqOrd.compare_eq_iff_eq.1 ha
      simp [insert, hgt]
    | gt =>
      -- the keys of the entries that come first are below both
      have hb : compare b k = .gt :=
        Std.OrientedCmp.gt_iff_lt.2 (Std.TransCmp.lt_trans (Std.OrientedCmp.gt_iff_lt.1 ha) h)
      simp [insert, ha, hb, ih]

/-- Values under different keys can be written in either order. -/
theorem insert_comm {a b : κ} (h : a ≠ b) (u v : ν) (entries : List (κ × ν)) :
    insert a u (insert b v entries) = insert b v (insert a u entries) := by
  cases hab : compare a b with
  | lt => exact insert_comm_of_lt hab u v entries
  | eq => exact absurd (Std.LawfulEqOrd.compare_eq_iff_eq.1 hab) h
  | gt => exact (insert_comm_of_lt (Std.OrientedCmp.gt_iff_lt.1 hab) v u entries).symm

end Entries

namespace Lens

variable {lens other : Lens} {v w : Json}

theorem length_writeItem (items : List Json) (i : Nat) (child : Json) :
    (writeItem items i child).length = max items.length (i + 1) := by
  unfold writeItem
  split
  · rw [List.length_set]
    omega
  · rw [List.length_append, List.length_append, List.length_replicate, List.length_singleton]
    omega

/-- Lists of one length that read alike are equal. -/
theorem ext_items {xs ys : List Json} (hlength : xs.length = ys.length)
    (h : ∀ j : Nat, xs[j]?.getD .null = ys[j]?.getD .null) : xs = ys := by
  refine List.ext_getElem hlength fun j hx hy => ?_
  have hj := h j
  rwa [List.getElem?_eq_getElem hx, List.getElem?_eq_getElem hy] at hj

/-- The second of two items at one place counts. -/
theorem writeItem_writeItem (items : List Json) (i : Nat) (u v : Json) :
    writeItem (writeItem items i u) i v = writeItem items i v := by
  refine ext_items ?_ fun j => ?_
  · rw [length_writeItem, length_writeItem, length_writeItem]
    omega
  · rw [getElem?_writeItem, getElem?_writeItem, getElem?_writeItem]
    split <;> rfl

/-- Items at different places can be written in either order. -/
theorem writeItem_comm {i j : Nat} (h : i ≠ j) (items : List Json) (u v : Json) :
    writeItem (writeItem items j v) i u = writeItem (writeItem items i u) j v := by
  refine ext_items ?_ fun n => ?_
  · rw [length_writeItem, length_writeItem, length_writeItem, length_writeItem]
    omega
  · simp only [getElem?_writeItem]
    by_cases hi : n = i
    · rw [if_pos hi, if_neg fun hj => h (hi.symm.trans hj), if_pos hi]
    · rw [if_neg hi, if_neg hi]

/-! ## §2. Two writes into a value. -/

/-- A place is written in a list, which may be one of fields. -/
theorem write_index_cases (parent : Json) :
    (∃ items, ∀ i child, (index i).write parent child = .array (writeItem items i child)) ∨
      ∃ fields, ∀ i child,
        (index i).write parent child = .object (Entries.insert (toString i) child fields) := by
  cases parent with
  | array items => exact .inl ⟨items, fun _ _ => rfl⟩
  | object fields => exact .inr ⟨fields, fun _ _ => rfl⟩
  | _ => exact .inl ⟨[], fun i child => by simp [write, writeItem]⟩

/-- A key is written in a list of fields. -/
theorem write_key (parent : Json) :
    ∃ fields, ∀ k child, (key k).write parent child = .object (Entries.insert k child fields) := by
  cases parent with
  | object fields => exact ⟨fields, fun _ _ => rfl⟩
  | _ => exact ⟨[], fun _ _ => rfl⟩

/-- **Of two writes at one position the second counts.** -/
theorem write_write (lens : Lens) (parent u v : Json) :
    lens.write (lens.write parent u) v = lens.write parent v := by
  cases lens with
  | identity => rfl
  | index i =>
    rcases write_index_cases parent with ⟨items, h⟩ | ⟨fields, h⟩
    · rw [h, h]
      exact congrArg Json.array (writeItem_writeItem items i u v)
    · rw [h, h]
      exact congrArg Json.object (Entries.insert_insert _ u v fields)
  | key k =>
    obtain ⟨fields, h⟩ := write_key parent
    rw [h, h]
    exact congrArg Json.object (Entries.insert_insert k u v fields)

/-- **Writes at two places, or under two keys, come to the same in either order.** -/
theorem write_comm (h : lens.Apart other) (parent u v : Json) :
    lens.write (other.write parent v) u = other.write (lens.write parent u) v := by
  cases lens with
  | identity => exact absurd h id
  | index i =>
    cases other with
    | index j =>
      rcases write_index_cases parent with ⟨items, hw⟩ | ⟨fields, hw⟩
      · rw [hw, hw]
        exact congrArg Json.array (writeItem_comm h items u v)
      · have hne : toString i ≠ toString j := fun heq => h (toString_inj heq)
        rw [hw, hw]
        exact congrArg Json.object (Entries.insert_comm hne u v fields)
    | _ => exact absurd h id
  | key k =>
    cases other with
    | key k' =>
      obtain ⟨fields, hw⟩ := write_key parent
      rw [hw, hw]
      exact congrArg Json.object (Entries.insert_comm h u v fields)
    | _ => exact absurd h id

/-- Two values differ at the position at most, if at all: a write there makes them equal. -/
def AgreeBut (lens : Lens) (v w : Json) : Prop := ∀ child, lens.write v child = lens.write w child

namespace AgreeBut

theorem refl (lens : Lens) (v : Json) : lens.AgreeBut v v := fun _ => rfl

theorem symm (h : lens.AgreeBut v w) : lens.AgreeBut w v := fun child => (h child).symm

theorem trans {u : Json} (h : lens.AgreeBut u v) (h' : lens.AgreeBut v w) : lens.AgreeBut u w :=
  fun child => (h child).trans (h' child)

/-- What a write leaves of a value. -/
theorem written (lens : Lens) (v u : Json) : lens.AgreeBut (lens.write v u) v :=
  lens.write_write v u

end AgreeBut

/-- Two lenses that one composite can have for its children: not a place beside a key. -/
def Akin : Lens → Lens → Prop
  | .index _, .key _ => False
  | .key _, .index _ => False
  | _, _ => True

theorem Akin.of_apart (h : lens.Apart other) : lens.Akin other := by
  cases lens <;> cases other <;> first | exact trivial | exact h

theorem Akin.refl (lens : Lens) : lens.Akin lens := by
  cases lens <;> exact trivial

/-- Lenses that are akin are equal or apart, unless one of them takes up the whole value. -/
theorem Akin.cases (h : lens.Akin other) :
    lens = .identity ∨ other = .identity ∨ lens = other ∨ lens.Apart other := by
  cases lens with
  | identity => exact .inl rfl
  | index i =>
    cases other with
    | identity => exact .inr (.inl rfl)
    | index j =>
      by_cases hij : i = j
      · exact .inr (.inr (.inl (by rw [hij])))
      · exact .inr (.inr (.inr hij))
    | key k => exact absurd h id
  | key k =>
    cases other with
    | identity => exact .inr (.inl rfl)
    | index j => exact absurd h id
    | key k' =>
      by_cases hk : k = k'
      · exact .inr (.inr (.inl (by rw [hk])))
      · exact .inr (.inr (.inr hk))

/-- **What a write beside the position keeps.** -/
theorem AgreeBut.write (h : lens.AgreeBut v w) (hakin : lens.Akin other) (u : Json) :
    lens.AgreeBut (other.write v u) (other.write w u) := by
  rcases hakin.cases with rfl | rfl | rfl | hapart
  · exact fun _ => rfl
  · exact refl lens u
  · rw [h u]
    exact refl lens _
  · intro child
    rw [write_comm hapart, write_comm hapart, h child]

end Lens

namespace ElementRegistry

variable {r r' r₁ r₂ : ElementRegistry} {x y z c p : ElementId} {e : Element} {k : Link}
  {u v w : Json}

/-! ## §3. The way of one element. -/

/-- One element is the other, or stands above it. -/
def OnWay (r : ElementRegistry) (x z : ElementId) : Prop := Relation.ReflTransGen r.IsParent x z

/-- The way goes through one child of each element. -/
theorem OnWay.child_unique {d : ElementId} (hacyclic : r.Acyclic) (hc : r.OnWay x c)
    (hd : r.OnWay x d) (hcp : r.IsParent c p) (hdp : r.IsParent d p) : c = d := by
  have hnot : ∀ {a b : ElementId}, r.IsParent a p → r.IsParent b p →
      Relation.ReflTransGen r.IsParent a b → a = b := by
    intro a b ha hb hab
    rcases hab.cases_head with heq | ⟨q, haq, hqb⟩
    · exact heq
    · -- the way from the one to the other would lead through their parent
      obtain rfl := ha.unique haq
      exact absurd (Relation.TransGen.tail' hqb hb) (hacyclic p)
  have hunique : Relator.RightUnique r.IsParent := fun _ _ _ => IsParent.unique
  rcases Relation.ReflTransGen.total_of_right_unique hunique hc hd with h | h
  · exact hnot hcp hdp h
  · exact (hnot hdp hcp h).symm

/-- What is written stands on the way. -/
theorem Written.onWay (h : r.Written x u z v) : r.OnWay x z := by
  induction h with
  | here => exact .refl
  | above _ he hparent hp ih => exact ih.tail (isParent_of_get? he hparent hp)

/-- And something is written everywhere on the way. -/
theorem OnWay.exists_written (h : r.OnWay x z) (u : Json) : ∃ v, r.Written x u z v := by
  induction h with
  | refl => exact ⟨u, .here⟩
  | tail _ hstep ih =>
    obtain ⟨v, hv⟩ := ih
    obtain ⟨k, hk, hparent, hlive⟩ := hstep
    obtain ⟨e, he, rfl⟩ := Option.map_eq_some_iff.1 hk
    obtain ⟨ep, hp⟩ := exists_get?_of_link? hlive
    exact ⟨_, hv.above he hparent hp⟩

/-- Nothing is written for an element that is not registered. -/
theorem writeThrough_of_get?_none (h : r.get? x = none) (v : Json) : r.writeThrough x v = r := by
  rw [writeThrough, lineage_of_get?_none h]
  rfl

/-! ## §4. Registries that differ by what a value of one element has left. -/

/-- Elements under one parent that is there have lenses that one composite can have. -/
def SiblingsAkin (r : ElementRegistry) : Prop :=
  ∀ c c' k k' p, r.link? c = some k → r.link? c' = some k' → k.parent = some p →
    k'.parent = some p → (r.link? p).isSome → k.lens.Akin k'.lens

/-- Siblings at different places, or under different keys, are of this kind. -/
theorem Independent.siblingsAkin (h : r.Independent) : r.SiblingsAkin := by
  intro c c' k k' p hk hk' hparent hparent' hlive
  by_cases hc : c = c'
  · subst hc
    obtain rfl := Option.some.inj (hk.symm.trans hk')
    exact .refl k.lens
  · exact .of_apart (h c c' k k' p hc hk hk' hparent hparent' hlive)

/-- A registry in which writes meet nothing unexpected: elements stand under their own identifiers,
none is its own ancestor, and siblings are linked alike. -/
structure Regular (r : ElementRegistry) : Prop where
  keyed : r.Keyed
  acyclic : r.Acyclic
  akin : r.SiblingsAkin

theorem Regular.congr (h : r.Regular) (hlinks : r'.link? = r.link?) : r'.Regular := by
  refine ⟨h.keyed.congr hlinks, h.acyclic.congr hlinks, ?_⟩
  unfold SiblingsAkin
  rw [hlinks]
  exact h.akin

/-- Values of `z` in two registries: equal off the way of `x`, and on it equal but for the position
of the element that the way comes from.  Nothing is said of `x` itself. -/
structure ValuesAgree (r : ElementRegistry) (x z : ElementId) (v w : Json) : Prop where
  off : ¬ r.OnWay x z → v = w
  above : ∀ c k, r.OnWay x c → r.link? c = some k → k.parent = some z → k.lens.AgreeBut v w

namespace ValuesAgree

theorem refl (r : ElementRegistry) (x z : ElementId) (v : Json) : r.ValuesAgree x z v v :=
  ⟨fun _ => rfl, fun _ k _ _ _ => .refl k.lens v⟩

theorem congr (h : r.ValuesAgree x z v w) (hlinks : r'.link? = r.link?) :
    r'.ValuesAgree x z v w := by
  have hway : r'.OnWay = r.OnWay := by
    unfold OnWay IsParent
    rw [hlinks]
  refine ⟨?_, ?_⟩
  · rw [hway]
    exact h.off
  · rw [hway, hlinks]
    exact h.above

/-- **One step up.**  Values of a child and of its parent that agree are written into each other. -/
theorem write (hr : r.Regular) {vp wp : Json} (hchild : r.ValuesAgree x c v w)
    (hparent : r.ValuesAgree x p vp wp) (hk : r.link? c = some k) (hkp : k.parent = some p)
    (hlive : (r.link? p).isSome) :
    r.ValuesAgree x p (k.lens.write vp v) (k.lens.write wp w) := by
  have hstep : r.IsParent c p := ⟨k, hk, hkp, hlive⟩
  by_cases hc : r.OnWay x c
  · -- the way comes from this child, and what is written replaces what may differ
    refine ⟨fun hp => absurd (hc.tail hstep) hp, fun c' k' hc' hk' hkp' => ?_⟩
    obtain rfl := OnWay.child_unique hr.acyclic hc hc' hstep ⟨k', hk', hkp', hlive⟩
    obtain rfl := Option.some.inj (hk.symm.trans hk')
    exact ((Lens.AgreeBut.written k.lens vp v).trans (hparent.above c k hc hk hkp)).trans
      (Lens.AgreeBut.written k.lens wp w).symm
  · -- it comes from another child, if it comes here at all, and both are written the same
    obtain rfl := hchild.off hc
    refine ⟨fun hp => by rw [hparent.off hp], fun c' k' hc' hk' hkp' => ?_⟩
    exact (hparent.above c' k' hc' hk' hkp').write (hr.akin c' c k' k p hk' hk hkp' hkp hlive) v

end ValuesAgree

/-- The one registry differs from the other only by what a value of `x` has left. -/
structure SameBut (x : ElementId) (r₁ r₂ : ElementRegistry) : Prop where
  names : r₁.names = r₂.names
  alike : Alike r₂ r₁
  values : ∀ z v w, r₁.value? z = some v → r₂.value? z = some w → r₂.ValuesAgree x z v w

/-- **What a value of `x` leaves.** -/
theorem sameBut_writeThrough (hr : r.Regular) (v : Json) : SameBut x (r.writeThrough x v) r := by
  refine ⟨names_writeThrough r x v, alike_writeThrough r x v, fun z v' w hv' hw => ?_⟩
  cases he : r.get? x with
  | none =>
    rw [writeThrough_of_get?_none he, hw] at hv'
    obtain rfl := Option.some.inj hv'
    exact .refl r x z w
  | some e =>
    by_cases hwritten : ∃ v', r.Written x v z v'
    · obtain ⟨v'', hwritten⟩ := hwritten
      rw [value?_writeThrough_of_written hr.keyed hr.acyclic he hwritten] at hv'
      obtain rfl := Option.some.inj hv'
      refine ⟨fun hoff => absurd hwritten.onWay hoff, fun c k hc hk hkz => ?_⟩
      have hlive : (r.link? z).isSome := by
        obtain ⟨ez, hez, -⟩ := Option.map_eq_some_iff.1 hw
        rw [link?_eq_some hez]
        rfl
      have hstep : r.IsParent c z := ⟨k, hk, hkz, hlive⟩
      cases hwritten with
      | here => exact absurd (Relation.TransGen.tail' hc hstep) (hr.acyclic x)
      | @above c' _ w' ec ez hc' hec hecz hez =>
        obtain rfl := hc'.onWay.child_unique hr.acyclic hc (isParent_of_get? hec hecz hez) hstep
        obtain rfl := Option.some.inj ((link?_eq_some hec).symm.trans hk)
        obtain rfl := Option.some.inj ((value?_eq_some hez).symm.trans hw)
        exact .written ec.lens ez.value w'
    · rw [value?_writeThrough_of_not_written hr.keyed hr.acyclic he (not_exists.1 hwritten), hw]
        at hv'
      obtain rfl := Option.some.inj hv'
      exact .refl r x z w

namespace SameBut

theorem onWay (h : SameBut x r₁ r₂) : r₁.OnWay = r₂.OnWay := by
  unfold OnWay IsParent
  rw [h.alike.link?]

/-- An element of the one registry has its counterpart in the other. -/
theorem exists_get? (h : SameBut x r₁ r₂) (he : r₁.get? z = some e) :
    ∃ e', r₂.get? z = some e' ∧ e'.parent = e.parent ∧ e'.lens = e.lens := by
  have hlink := congrFun h.alike.link? z
  rw [link?_eq_some he] at hlink
  obtain ⟨e', he', hsame⟩ := Option.map_eq_some_iff.1 hlink.symm
  obtain ⟨-, hparent, hlens⟩ := Link.mk.inj hsame
  exact ⟨e', he', hparent, hlens⟩

/-- Off the way of `x` the values are the same. -/
theorem value?_of_not_onWay (h : SameBut x r₁ r₂) (hz : ¬ r₂.OnWay x z) :
    r₁.value? z = r₂.value? z := by
  cases he : r₁.get? z with
  | none =>
    have hlink := congrFun h.alike.link? z
    rw [link?, he] at hlink
    rw [value?, value?, he, Option.map_eq_none_iff.1 hlink.symm]
  | some e =>
    obtain ⟨e', he', -, -⟩ := h.exists_get? he
    rw [value?_eq_some he, value?_eq_some he']
    exact congrArg some ((h.values z _ _ (value?_eq_some he) (value?_eq_some he')).off hz)

/-- What is written on the way of another element agrees. -/
theorem exists_written (h : SameBut x r₁ r₂) (hr : r₂.Regular) (hv : r₁.Written y u z v) :
    ∃ w, r₂.Written y u z w ∧ r₂.ValuesAgree x z v w := by
  induction hv with
  | here => exact ⟨u, .here, .refl r₂ x y u⟩
  | above _ he hparent hp ih =>
    obtain ⟨w, hw, hagree⟩ := ih
    obtain ⟨e', he', hparent', hlens⟩ := h.exists_get? he
    obtain ⟨ep', hp', -, -⟩ := h.exists_get? hp
    rw [hparent] at hparent'
    refine ⟨_, hw.above he' hparent' hp', ?_⟩
    rw [← hlens]
    have hparents := h.values _ _ _ (value?_eq_some hp) (value?_eq_some hp')
    exact hagree.write hr hparents (link?_eq_some he') hparent' (by rw [link?_eq_some hp']; rfl)

/-- **A value of another element keeps two registries the same but for what `x` has left.** -/
theorem writeThrough (h : SameBut x r₁ r₂) (hr : r₂.Regular) (y : ElementId) (u : Json) :
    SameBut x (r₁.writeThrough y u) (r₂.writeThrough y u) := by
  have hr₁ : r₁.Regular := hr.congr h.alike.link?
  cases he : r₁.get? y with
  | none =>
    have he₂ : r₂.get? y = none := by
      have hlink := congrFun h.alike.link? y
      rw [link?, he] at hlink
      exact Option.map_eq_none_iff.1 hlink.symm
    rwa [writeThrough_of_get?_none he, writeThrough_of_get?_none he₂]
  | some e =>
    obtain ⟨e₂, he₂, -, -⟩ := h.exists_get? he
    refine ⟨?_, h.alike.writeThrough y u u, fun z v w hv hw => ?_⟩
    · rw [names_writeThrough, names_writeThrough, h.names]
    · refine ValuesAgree.congr ?_ (link?_writeThrough r₂ y u)
      by_cases hwritten : ∃ v', r₁.Written y u z v'
      · obtain ⟨v', hwritten⟩ := hwritten
        obtain ⟨w', hwritten₂, hagree⟩ := h.exists_written hr hwritten
        rw [value?_writeThrough_of_written hr₁.keyed hr₁.acyclic he hwritten] at hv
        rw [value?_writeThrough_of_written hr.keyed hr.acyclic he₂ hwritten₂] at hw
        obtain rfl := Option.some.inj hv
        obtain rfl := Option.some.inj hw
        exact hagree
      · -- what is not on the way of `y` in the one registry is not in the other
        have hwritten₂ : ∀ w', ¬ r₂.Written y u z w' := fun w' hw' =>
          hwritten (OnWay.exists_written (by rw [h.onWay]; exact hw'.onWay) u)
        rw [value?_writeThrough_of_not_written hr₁.keyed hr₁.acyclic he (not_exists.1 hwritten)]
          at hv
        rw [value?_writeThrough_of_not_written hr.keyed hr.acyclic he₂ hwritten₂] at hw
        exact h.values z v w hv hw

/-- On the way of `x` itself the same is written. -/
theorem written_self (h : SameBut x r₁ r₂) (hv : r₁.Written x u z v) : r₂.Written x u z v := by
  induction hv with
  | here => exact .here
  | @above c _ _ _ _ hc he hparent hp ih =>
    obtain ⟨e', he', hparent', hlens⟩ := h.exists_get? he
    obtain ⟨ep', hp', -, -⟩ := h.exists_get? hp
    rw [hparent] at hparent'
    have hparents := h.values _ _ _ (value?_eq_some hp) (value?_eq_some hp')
    have hon : r₂.OnWay x c := by
      rw [← h.onWay]
      exact hc.onWay
    have hagree := hparents.above _ _ hon (link?_eq_some he') hparent'
    rw [← hlens, hagree]
    exact ih.above he' hparent' hp'

/-- **A value of `x` makes them equal.** -/
theorem writeThrough_self (h : SameBut x r₁ r₂) (hr : r₂.Regular) (he : r₂.get? x = some e)
    (u : Json) : r₁.writeThrough x u = r₂.writeThrough x u := by
  have hr₁ : r₁.Regular := hr.congr h.alike.link?
  obtain ⟨e₁, he₁⟩ := exists_get?_of_link? (r := r₁) (x := x) (by
    rw [h.alike.link?, link?_eq_some he]
    rfl)
  refine eq_of_alike (h.alike.writeThrough x u u) (funext fun z => ?_) ?_
  · by_cases hz : r₁.OnWay x z
    · obtain ⟨v, hv⟩ := hz.exists_written u
      rw [value?_writeThrough_of_written hr₁.keyed hr₁.acyclic he₁ hv,
        value?_writeThrough_of_written hr.keyed hr.acyclic he (h.written_self hv)]
    · have hz₂ : ¬ r₂.OnWay x z := by rwa [← h.onWay]
      rw [value?_writeThrough_of_not_written hr₁.keyed hr₁.acyclic he₁ fun v hv => hz hv.onWay,
        value?_writeThrough_of_not_written hr.keyed hr.acyclic he fun v hv => hz₂ hv.onWay]
      exact h.value?_of_not_onWay hz₂
  · rw [names_writeThrough, names_writeThrough, h.names]

end SameBut

/-! ## §5. Events. -/

end ElementRegistry

namespace Event

variable {events : List Event} {event earlier later : Event}

/-- A completion request supersedes another one, and a value another one for the same element. -/
theorem supersedes_iff : later.supersedes earlier = true ↔
    (∃ n s n' s', later = .complete n s ∧ earlier = .complete n' s') ∨
      ∃ x v v', later = .setElement x v ∧ earlier = .setElement x v' := by
  constructor
  · intro h
    unfold supersedes at h
    split at h
    · exact .inl ⟨_, _, _, _, rfl, rfl⟩
    · rename_i a v b w
      obtain rfl : a = b := by simpa using h
      exact .inr ⟨a, _, _, rfl, rfl⟩
    · cases h
  · rintro (⟨n, s, n', s', rfl, rfl⟩ | ⟨x, v, v', rfl, rfl⟩)
    · rfl
    · simp [supersedes]

/-- What is dropped from the queue is superseded by something that stays. -/
theorem exists_mem_coalesce (h : event ∈ events) :
    ∃ last ∈ coalesce events, last = event ∨ last.supersedes event = true := by
  induction events generalizing event with
  | nil => cases h
  | cons first later ih =>
    rw [coalesce]
    split
    · rename_i hsuperseded
      rcases List.mem_cons.1 h with rfl | h
      · obtain ⟨l, hl, hsuper⟩ := List.any_eq_true.1 hsuperseded
        obtain ⟨last, hlast, rfl | hagain⟩ := ih hl
        · exact ⟨last, hlast, .inr hsuper⟩
        · -- what supersedes the one supersedes the other
          refine ⟨last, hlast, .inr ?_⟩
          rw [supersedes_iff] at hsuper hagain ⊢
          rcases hsuper with ⟨n, s, n', s', rfl, rfl⟩ | ⟨x, v, v', rfl, rfl⟩ <;>
            rcases hagain with ⟨m, t, m', t', rfl, heq⟩ | ⟨y, w, w', rfl, heq⟩ <;> cases heq
          · exact .inl ⟨_, _, _, _, rfl, rfl⟩
          · exact .inr ⟨_, _, _, rfl, rfl⟩
      · exact ih h
    · rcases List.mem_cons.1 h with rfl | h
      · exact ⟨event, List.mem_cons_self, .inl rfl⟩
      · obtain ⟨last, hlast, hsame⟩ := ih h
        exact ⟨last, List.mem_cons_of_mem _ hlast, hsame⟩

/-- What stays was queued. -/
theorem coalesce_sublist (events : List Event) : (coalesce events).Sublist events := by
  induction events with
  | nil => exact .slnil
  | cons first later ih =>
    rw [coalesce]
    split
    · exact ih.cons first
    · exact ih.cons_cons first

end Event

namespace ElementRegistry

variable {r r₁ r₂ : ElementRegistry} {x : ElementId} {u : Json}

/-- What an event does to the elements: only a new value does anything. -/
def receive (r : ElementRegistry) : Event → ElementRegistry
  | .setElement x v => r.writeThrough x v
  | _ => r

theorem alike_receive (r : ElementRegistry) (event : Event) : Alike r (r.receive event) := by
  cases event with
  | setElement x v => exact alike_writeThrough r x v
  | _ => exact ⟨rfl, rfl⟩

theorem Regular.receive (hr : r.Regular) (event : Event) : (r.receive event).Regular :=
  hr.congr (alike_receive r event).link?

/-- Events that end up with a value of `x` leave no difference. -/
theorem SameBut.foldl_receive (h : SameBut x r₁ r₂) (hr : r₂.Regular) (he : (r₂.link? x).isSome)
    {events : List Event} (hmem : .setElement x u ∈ events) :
    events.foldl receive r₁ = events.foldl receive r₂ := by
  induction events generalizing r₁ r₂ with
  | nil => cases hmem
  | cons first rest ih =>
    rw [List.foldl_cons, List.foldl_cons]
    rcases List.mem_cons.1 hmem with rfl | hmem
    · obtain ⟨e, he⟩ := exists_get?_of_link? he
      exact congrArg (rest.foldl receive) (h.writeThrough_self hr he u)
    · refine ih ?_ (hr.receive first) ?_ hmem
      · cases first with
        | setElement y v => exact h.writeThrough hr y v
        | _ => exact h
      · rwa [(alike_receive r₂ first).link?]

/-- **Superseded values leave no trace.**  The elements are the same whether or not the values that
later events supersede are written. -/
theorem foldl_receive_coalesce (hr : r.Regular) (events : List Event) :
    (Event.coalesce events).foldl receive r = events.foldl receive r := by
  induction events generalizing r with
  | nil => rfl
  | cons first later ih =>
    rw [Event.coalesce]
    split
    · rename_i hsuperseded
      rw [ih hr, List.foldl_cons]
      obtain ⟨last, hlast, hsuper⟩ := List.any_eq_true.1 hsuperseded
      cases first with
      | setElement x v =>
        obtain ⟨_, _, _, _, -, heq⟩ | ⟨_, w, _, rfl, heq⟩ := Event.supersedes_iff.1 hsuper <;>
          cases heq
        cases he : r.get? x with
        | none =>
          have hsame : r.receive (.setElement x v) = r := writeThrough_of_get?_none he v
          rw [hsame]
        | some e =>
          have hleft : SameBut x (r.receive (.setElement x v)) r := sameBut_writeThrough hr v
          exact (hleft.foldl_receive hr (by rw [link?_eq_some he]; rfl) hlast).symm
      | _ => rfl
    · exact ih (hr.receive first)

end ElementRegistry

end Notebook
