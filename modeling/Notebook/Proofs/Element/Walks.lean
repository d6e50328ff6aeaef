/-
  Notebook.Proofs.Element.Walks — a new value and its patch go the same way up.

  An element that is given a value answers with a patch for its root.  The patch is carried up on
  one walk, the value on another, and each has its own ways to end: at an element without a parent,
  at one whose parent was evicted, at one that it has been to.  Where no element is its own ancestor
  the two walks go through the same elements, the way up (`ElementRegistry.Up`), and nothing else
  changes.

  Main results:
    * `ElementRegistry.Up.projectUp_eq`, `…storeUp_eq` — either walk goes the way up,
    * `ElementRegistry.Up.get?_writeThrough_of_written`, `…_of_notMem` — what a write leaves,
    * `ElementRegistry.Reached.storeValue_walks` — an answer and a write after every history.
-/
import Notebook.Proofs.Element.Patches
import Notebook.Proofs.Element.Children

namespace Notebook

/-! ## §1. Patches, key by key. -/

/-- The keys of the positions from the root down to the first element of a way up. -/
def segmentsTo (way : List Element) : List String := (pathTo way).filterMap Lens.segment?

/-- A value under keys, the outermost first, each the only one on its level. -/
def nest (segments : List String) (value : Json) : Json :=
  segments.foldr (fun segment inner => .object [(segment, inner)]) value

/-- A patch has one level for every lens that has a key. -/
theorem patchAlong_eq_nest (value : Json) (way : List Element) :
    ElementRegistry.patchAlong value way = nest (segmentsTo way) value := by
  rw [patchAlong_eq, segmentsTo]
  induction pathTo way with
  | nil => rfl
  | cons lens path ih =>
    show lens.wrap (wrapAlong path value) = _
    rw [ih, Lens.wrap, List.filterMap_cons]
    cases lens.segment? <;> rfl

namespace ElementRegistry

variable {r : ElementRegistry} {id x : ElementId} {e top : Element} {way : List Element}
  {visited : List ElementId} {v w : Json}

/-! ## §2. The walk of the patch. -/

theorem parent?_of_get? (he : r.get? id = some e) : r.parent? id = e.parent.filter r.contains := by
  rw [parent?, he, Option.bind_some]

/-- **The patch goes the way up.** -/
theorem Up.projectUp_eq (h : r.Up id way) (hkeyed : r.Keyed)
    (hnodup : (way.map Element.id).Nodup) (hfresh : ∀ a ∈ way, a.id ∉ visited)
    (htop : way.getLast? = some top) (patch : Json) :
    r.projectUp visited id patch = (top.id, patchAlong patch way) := by
  induction h generalizing visited patch with
  | @root id e he hend =>
    obtain rfl : e = top := Option.some.inj htop
    have hid := hkeyed.id_eq he
    have hparent : r.parent? id = none := by
      rw [parent?_of_get? he, Option.filter_eq_none_iff]
      intro p hp
      rw [contains, Table.contains, ← get?, hend p hp]
      exact Bool.false_ne_true
    rw [projectUp, if_neg (hid ▸ hfresh e List.mem_cons_self)]
    split
    · rw [hid]
      rfl
    · rename_i p hp
      rw [hparent] at hp
      cases hp
  | @under id p e way he hp hrest ih =>
    obtain ⟨ep, rest, rfl, hgetp⟩ := hrest.head
    rw [List.getLast?_cons_cons] at htop
    have hid := hkeyed.id_eq he
    have hparent : r.parent? id = some p := by
      rw [parent?_of_get? he, hp, Option.filter_some, contains_of_get? hgetp]
      rfl
    obtain ⟨hnot, hnodup⟩ := List.nodup_cons.1 hnodup
    rw [projectUp, if_neg (hid ▸ hfresh e List.mem_cons_self)]
    split
    · rename_i hnone
      rw [hparent] at hnone
      cases hnone
    · rename_i q hq
      obtain rfl : p = q := Option.some.inj (hparent.symm.trans hq)
      have hlens : r.lensOf id = e.lens := by
        rw [lensOf, he]
        rfl
      rw [hlens, ih hnodup ?_ htop]
      · rfl
      · intro a ha hmem
        rcases List.mem_append.1 hmem with hmem | hmem
        · exact hfresh a (List.mem_cons_of_mem _ ha) hmem
        · refine hnot (List.mem_map.2 ⟨a, ha, ?_⟩)
          rw [List.mem_singleton.1 hmem, hid]

/-- The answer is the same as at once. -/
theorem resolveLens_eq (hkeyed : r.Keyed) (hacyclic : r.Acyclic) (id : ElementId) (v : Json) :
    r.resolveLens id v = r.resolve id v := by
  unfold resolveLens
  cases hget : r.get? id with
  | none =>
    rw [resolve, lineage_of_get?_none hget]
    rfl
  | some e =>
    obtain ⟨way, hway⟩ := hacyclic.exists_up hget
    obtain ⟨top, htop, -⟩ := hway.exists_top hkeyed
    have hnodup := hway.nodup hkeyed hacyclic
    rw [resolve, lineage_eq hway hkeyed hacyclic, htop]
    show Except.ok (r.projectUp [] id v) = _
    rw [hway.projectUp_eq hkeyed hnodup (fun a _ => List.not_mem_nil) htop]

/-! ## §3. The walk of the value. -/

/-- A change of an element that is not on a way up leaves the way as it is. -/
theorem Up.update (h : r.Up id way) (hkeyed : r.Keyed) (hx : x ∉ way.map Element.id)
    (f : Element → Element) : (r.update x f).Up id way := by
  have hget : ∀ {y e}, r.get? y = some e → y ≠ x → (r.update x f).get? y = some e := by
    intro y e he hne
    rw [get?_update, if_neg hne, he]
  induction h with
  | @root id e he hend =>
    have hne : id ≠ x := by
      intro heq
      exact hx (List.mem_map.2 ⟨e, List.mem_cons_self, (hkeyed.id_eq he).trans heq⟩)
    refine .root (hget he hne) fun p hp => ?_
    rw [get?_update, hend p hp]
    exact ite_self none
  | @under id p e way he hp hrest ih =>
    have hne : id ≠ x := by
      intro heq
      exact hx (List.mem_map.2 ⟨e, List.mem_cons_self, (hkeyed.id_eq he).trans heq⟩)
    rw [List.map_cons, List.mem_cons, not_or] at hx
    exact .under (hget he hne) hp (ih hx.2)

/-- **The value goes the way up**, and gives every element on it the value along the way. -/
theorem Up.storeUp_eq (h : r.Up id way) (hkeyed : r.Keyed) (hnodup : (way.map Element.id).Nodup)
    (hfresh : ∀ a ∈ way, a.id ∉ visited) (v : Json) :
    r.storeUp visited id v = r.assign (valuesAlong v way) := by
  induction way generalizing r id visited v with
  | nil => exact absurd rfl h.ne_nil
  | cons e way ih =>
    have hget : r.get? id = some e := by
      obtain ⟨e', rest, heq, he⟩ := h.head
      exact (List.cons.inj heq).1 ▸ he
    have hid := hkeyed.id_eq hget
    obtain ⟨hnot, hnodup⟩ := List.nodup_cons.1 hnodup
    rw [storeUp, if_neg (hid ▸ hfresh e List.mem_cons_self)]
    split
    · rename_i hnone
      rw [hget] at hnone
      cases hnone
    rename_i e' he'
    obtain rfl : e = e' := Option.some.inj (hget.symm.trans he')
    cases h with
    | root he hend =>
      -- the parent is not there, neither before the write nor after it
      have hgone : ∀ p, e.parent = some p →
          (r.update id fun e => { e with value := v }).get? p = none := by
        intro p hp
        rw [get?_update, hend p hp]
        exact ite_self none
      show _ = r.update e.id _
      rw [hid]
      split
      · rfl
      · rename_i p hp
        dsimp only
        rw [hgone p hp]
    | @under _ p _ _ he hp hrest =>
      obtain ⟨above, rest, rfl, hgetp⟩ := hrest.head
      have hrest' := hrest.update hkeyed (hid ▸ hnot) fun e => { e with value := v }
      have hkeyed' : (r.update id fun e => { e with value := v }).Keyed :=
        hkeyed.congr (link?_update r id fun e => ⟨rfl, rfl, rfl⟩)
      have habove : (r.update id fun e => { e with value := v }).get? p = some above := by
        obtain ⟨above', rest', heq, h'⟩ := hrest'.head
        exact (List.cons.inj heq).1 ▸ h'
      have hfresh' : ∀ a ∈ above :: rest, a.id ∉ visited ++ [id] := by
        intro a ha hmem
        rcases List.mem_append.1 hmem with hmem | hmem
        · exact hfresh a (List.mem_cons_of_mem _ ha) hmem
        · refine hnot (List.mem_map.2 ⟨a, ha, ?_⟩)
          rw [List.mem_singleton.1 hmem, hid]
      rw [hp]
      dsimp only
      rw [habove]
      dsimp only
      rw [ih hrest' hkeyed' hnodup hfresh', ← hid]
      rfl

/-- The registry afterwards is the same as at once. -/
theorem storeUp_eq (hkeyed : r.Keyed) (hacyclic : r.Acyclic) (he : r.get? id = some e) (v : Json) :
    r.storeUp [] id v = r.writeThrough id v := by
  obtain ⟨way, hway⟩ := hacyclic.exists_up he
  rw [hway.storeUp_eq hkeyed (hway.nodup hkeyed hacyclic) (fun a _ => List.not_mem_nil),
    writeThrough_eq_assign hway hkeyed hacyclic]

/-! ## §4. What a write leaves. -/

theorem get?_assign_of_notMem {values : List (ElementId × Json)} (r : ElementRegistry)
    (hx : x ∉ values.map Prod.fst) : (r.assign values).get? x = r.get? x := by
  induction values generalizing r with
  | nil => rfl
  | cons first values ih =>
    obtain ⟨id, value⟩ := first
    rw [List.map_cons, List.mem_cons, not_or] at hx
    refine (ih (r.update id fun e => { e with value }) hx.2).trans ?_
    rw [get?_update, if_neg hx.1]

theorem get?_assign_of_mem {values : List (ElementId × Json)} (r : ElementRegistry)
    (hnodup : (values.map Prod.fst).Nodup) (hmem : (x, w) ∈ values) :
    (r.assign values).get? x = (r.get? x).map fun e => { e with value := w } := by
  induction values generalizing r with
  | nil => cases hmem
  | cons first values ih =>
    obtain ⟨id, value⟩ := first
    obtain ⟨hnot, hnodup⟩ := List.nodup_cons.1 hnodup
    rcases List.mem_cons.1 hmem with heq | hmem
    · obtain ⟨rfl, rfl⟩ := Prod.mk.inj heq
      refine (get?_assign_of_notMem _ hnot).trans ?_
      rw [get?_update, if_pos rfl]
    · have hne : x ≠ id := by
        intro heq
        exact hnot (List.mem_map.2 ⟨(x, w), hmem, heq⟩)
      refine (ih (r.update id fun e => { e with value }) hnodup hmem).trans ?_
      rw [get?_update, if_neg hne]

/-- The elements of the way up are those that something is written to. -/
theorem Up.mem_ids_iff (h : r.Up id way) (hkeyed : r.Keyed) (v : Json) :
    x ∈ way.map Element.id ↔ ∃ w, r.Written id v x w := by
  rw [← map_fst_valuesAlong v way, List.mem_map]
  constructor
  · rintro ⟨⟨y, w⟩, hmem, rfl⟩
    exact ⟨w, (h.mem_valuesAlong_iff hkeyed).1 hmem⟩
  · rintro ⟨w, hw⟩
    exact ⟨(x, w), (h.mem_valuesAlong_iff hkeyed).2 hw, rfl⟩

/-- **Every element on the way up changes its value only.** -/
theorem Up.get?_writeThrough_of_written (h : r.Up id way) (hkeyed : r.Keyed) (hacyclic : r.Acyclic)
    (hx : r.Written id v x w) :
    (r.writeThrough id v).get? x = (r.get? x).map fun e => { e with value := w } := by
  rw [writeThrough_eq_assign h hkeyed hacyclic]
  refine get?_assign_of_mem r ?_ ((h.mem_valuesAlong_iff hkeyed).2 hx)
  rw [map_fst_valuesAlong]
  exact h.nodup hkeyed hacyclic

/-- **Every other element stays as it is.** -/
theorem Up.get?_writeThrough_of_notMem (h : r.Up id way) (hkeyed : r.Keyed) (hacyclic : r.Acyclic)
    (hx : x ∉ way.map Element.id) : (r.writeThrough id v).get? x = r.get? x := by
  rw [writeThrough_eq_assign h hkeyed hacyclic]
  refine get?_assign_of_notMem r ?_
  rwa [map_fst_valuesAlong]

/-! ## §5. An answer and a write after every history. -/

/-- **A value and its patch go the same way up.**  An element that is not registered cannot be given
a value, and then nothing changes.  From one that is registered a way leads up to a root.  The
answer to a new value is that of the patch alone: the root, and the value under the keys of the
lenses on the way, one key to a level.  The element has the value, every ancestor on the way has the
child's new value written into its own, and everything else stays as it is. -/
theorem Reached.storeValue_walks (hr : r.Reached) (id : ElementId) (v : Json) :
    (r.contains id = false → r.storeValue id v = (.error (.elementNotFound id.text), r)) ∧
      (r.contains id = true → ∃ way top r',
        r.Up id way ∧ way.getLast? = some top ∧
        r.storeValue id v = (.ok (top.id, nest (segmentsTo way) v), r') ∧
        r.resolveLens id v = .ok (top.id, nest (segmentsTo way) v) ∧
        r.setValue id v = .ok ((top.id, nest (segmentsTo way) v), r') ∧
        (∀ x, x ∈ way.map Element.id ↔ ∃ w, r.Written id v x w) ∧
        (∀ x w, r.Written id v x w → r'.get? x = (r.get? x).map fun e => { e with value := w }) ∧
        (∀ x, x ∉ way.map Element.id → r'.get? x = r.get? x) ∧ r'.names = r.names) := by
  have hkeyed := hr.keyed
  have hacyclic := hr.acyclic
  constructor
  · intro hgone
    have hnone : r.get? id = none := by
      cases hget : r.get? id with
      | none => rfl
      | some e =>
        rw [contains_of_get? hget] at hgone
        cases hgone
    rw [storeValue, resolveLens, hnone]
  · intro hlive
    obtain ⟨e, he⟩ := Option.isSome_iff_exists.1 hlive
    obtain ⟨way, hway⟩ := hacyclic.exists_up he
    obtain ⟨top, htop, -⟩ := hway.exists_top hkeyed
    have hresolve : r.resolve id v = .ok (top.id, nest (segmentsTo way) v) := by
      rw [resolve, lineage_eq hway hkeyed hacyclic, htop, patchAlong_eq_nest]
    have hlens : r.resolveLens id v = .ok (top.id, nest (segmentsTo way) v) := by
      rw [resolveLens_eq hkeyed hacyclic, hresolve]
    refine ⟨way, top, r.writeThrough id v, hway, htop, ?_, hlens,
      setValue_eq_ok_iff.2 ⟨hresolve, rfl⟩, fun x => hway.mem_ids_iff hkeyed v,
      fun x w => hway.get?_writeThrough_of_written hkeyed hacyclic,
      fun x => hway.get?_writeThrough_of_notMem hkeyed hacyclic, names_writeThrough r id v⟩
    rw [storeValue, hlens, ← storeUp_eq hkeyed hacyclic he]

/-- A new value of `x` goes through the form to the array, and passes `y` by. -/
theorem fieldsInForm_stored :
    fieldsInForm.Reached ∧ fieldsInForm.contains ⟨"x"⟩ = true ∧
      ∃ r', fieldsInForm.storeValue ⟨"x"⟩ (.int 5) =
          (.ok (⟨"outer"⟩, .object [("0", .object [("x", .int 5)])]), r') ∧
        r'.value? ⟨"outer"⟩ = some (.array [.object [("x", .int 5), ("y", .int 0)]]) ∧
        r'.get? ⟨"y"⟩ = fieldsInForm.get? ⟨"y"⟩ := by
  have hr := fieldsInForm_orderly.reached
  refine ⟨hr, by decide, ?_⟩
  obtain ⟨way, top, r', hway, -, hstored, -, hset, -, -, hkept, -⟩ :=
    (hr.storeValue_walks ⟨"x"⟩ (.int 5)).2 (by decide)
  have hanswer : fieldsInForm.setValue ⟨"x"⟩ (.int 5) =
    .ok ((⟨"outer"⟩, .object [("0", .object [("x", .int 5)])]),
      fieldsInForm.writeThrough ⟨"x"⟩ (.int 5)) := rfl
  rw [hanswer] at hset
  obtain ⟨hpair, rfl⟩ := Prod.mk.inj (Except.ok.inj hset)
  refine ⟨_, by rw [hstored, hpair], rfl, hkept ⟨"y"⟩ ?_⟩
  rw [← lineage_eq hway hr.keyed hr.acyclic]
  decide

end ElementRegistry

end Notebook
