/-
  Notebook.Proofs.Element.Patches — what an element's new value does to its root.

  Giving an element a value returns a patch for its root: the value, nested along the lenses on the
  way down.  The root's value is changed by writing through the copies that the ancestors hold, not
  by the patch.  At the patch's position the root then holds the value in any case.  Everything
  beside that position stays as it was exactly when the copies agree there with the root.

  After an orderly history they do.  But a composite can be given a value of its own, and its
  children's copies do not follow: the next write through them brings old values back.

  Main results:
    * `ElementRegistry.Coherent.copiesAgree` — coherent copies agree with the root,
    * `ElementRegistry.setValue_replaces` — what the root holds after a value is given,
    * `ElementRegistry.formReset_restores` — a write that brings an old value back.
-/
import Notebook.Proofs.Element.Histories

namespace Notebook

namespace ElementRegistry

variable {r : ElementRegistry} {id : ElementId} {e top : Element} {way : List Element} {v : Json}

/-! ## §1. Coherent copies. -/

/-- The way up ends at a root. -/
theorem Up.exists_top (h : r.Up id way) (hkeyed : r.Keyed) :
    ∃ top, way.getLast? = some top ∧ r.get? top.id = some top := by
  refine ⟨way.getLast h.ne_nil, List.getLast?_eq_some_getLast h.ne_nil, ?_⟩
  exact (h.mem hkeyed (List.getLast_mem h.ne_nil)).1

/-- Coherent values are read from the root's value. -/
theorem Coherent.readAlong_pathTo (hcoherent : r.Coherent) (h : r.Up id way)
    (hhead : way.head? = some e) (htop : way.getLast? = some top) :
    readAlong (pathTo way) top.value = e.value := by
  induction h generalizing e with
  | root he _ =>
    obtain rfl := Option.some.inj hhead
    obtain rfl := Option.some.inj htop
    rfl
  | @under id p e₀ way he hp hrest ih =>
    obtain rfl := Option.some.inj hhead
    obtain ⟨ep, rest, rfl, hgetp⟩ := hrest.head
    rw [List.getLast?_cons_cons] at htop
    have hholds := hcoherent p ep.value (value?_eq_some hgetp) id _ _ (link?_eq_some he) hp
      (value?_eq_some he)
    rw [pathTo, readAlong_append, ih rfl htop]
    exact hholds.read

/-- **Coherent copies agree with the root.** -/
theorem Coherent.copiesAgree (hcoherent : r.Coherent) (h : r.Up id way)
    (htop : way.getLast? = some top) : CopiesAgree top.value way := by
  induction h with
  | root => exact trivial
  | @under id p e₀ way he hp hrest ih =>
    obtain ⟨ep, rest, rfl, hgetp⟩ := hrest.head
    rw [List.getLast?_cons_cons] at htop
    have hholds := hcoherent p ep.value (value?_eq_some hgetp) id _ _ (link?_eq_some he) hp
      (value?_eq_some he)
    refine ⟨(Lens.spares_iff hholds.fits).2 fun other _ => ?_, ih htop⟩
    rw [hcoherent.readAlong_pathTo hrest rfl htop]

/-- Writing through coherent copies is writing into the root's value. -/
theorem Coherent.topValue_eq (hcoherent : r.Coherent) (h : r.Up id way)
    (htop : way.getLast? = some top) (v : Json) :
    topValue v way = writeAlong (pathTo way) top.value v := by
  induction h generalizing v with
  | root => rfl
  | @under id p e₀ way he hp hrest ih =>
    obtain ⟨ep, rest, rfl, hgetp⟩ := hrest.head
    rw [List.getLast?_cons_cons] at htop
    rw [topValue, pathTo, writeAlong_concat, hcoherent.readAlong_pathTo hrest rfl htop]
    exact ih htop _

/-! ## §2. The answer and the new value of the root. -/

/-- The answer names the root and nests the value once per lens. -/
theorem resolve_eq (h : r.Up id way) (hkeyed : r.Keyed) (hacyclic : r.Acyclic)
    (htop : way.getLast? = some top) (v : Json) :
    r.resolve id v = .ok (top.id, wrapAlong (pathTo way) v) := by
  unfold resolve
  rw [lineage_eq h hkeyed hacyclic, htop, patchAlong_eq]

/-- **What the root holds after a value is given.**  Every registered element can be given a value.
The patch nests it along the way down from the root, and the value now stands at that position.
Every position beside it, at every level, keeps what it held exactly when the copies on the way agree
there with the root; after an orderly history that is always so. -/
theorem setValue_replaces (hr : r.Reached) (hlive : r.contains id = true) (v : Json) :
    ∃ root patch r' way old new, r.setValue id v = .ok ((root, patch), r') ∧
      r.Up id way ∧ way.getLast?.map Element.id = some root ∧
      r.value? root = some old ∧ r'.value? root = some new ∧
      patch = wrapAlong (pathTo way) v ∧
      readAlong (pathTo way) new = v ∧
      (Replaced (pathTo way) old new v ↔ CopiesAgree old way) ∧
      (r.Orderly → Replaced (pathTo way) old new v ∧ new = writeAlong (pathTo way) old v) := by
  have hkeyed := hr.keyed
  have hacyclic := hr.acyclic
  obtain ⟨e, he⟩ := Option.isSome_iff_exists.1 hlive
  obtain ⟨way, hway⟩ := hacyclic.exists_up he
  obtain ⟨top, htop, hget⟩ := hway.exists_top hkeyed
  have hresolve := resolve_eq hway hkeyed hacyclic htop v
  have hwritten := (hway.mem_valuesAlong_iff hkeyed).1 (mem_valuesAlong_topValue v htop)
  have hreplaced := replaced_topValue_iff top.value v way hway.ne_nil
  refine ⟨top.id, _, _, way, top.value, topValue v way, setValue_eq_ok_iff.2 ⟨hresolve, rfl⟩, hway,
    ?_, value?_eq_some hget, ?_, rfl, readAlong_topValue v way, hreplaced, ?_⟩
  · rw [htop, Option.map_some]
  · exact value?_writeThrough_of_written hkeyed hacyclic he hwritten
  · intro horderly
    exact ⟨hreplaced.2 (horderly.coherent.copiesAgree hway htop),
      horderly.coherent.topValue_eq hway htop v⟩

/-! ## §3. A form in an array. -/

/-- The registry with one more element, if it can be registered; all under one fingerprint. -/
def extend (r : ElementRegistry) (name : String) (kind : ElementKind) (value : Json)
    (parent : Option ElementId) (lens : Lens) : ElementRegistry :=
  match r.register ⟨⟨name⟩, kind, value, ⟨[]⟩, ⟨0⟩⟩ parent lens with
  | .ok r' => r'
  | .error _ => r

/-- Registries are built in an orderly way from fresh elements at positions of their own. -/
theorem Orderly.extend {name : String} {kind : ElementKind} {parent : Option ElementId}
    {lens : Lens} (hr : r.Orderly) (hfresh : r.IsFresh ⟨name⟩)
    (hapart : (r.extend name kind v parent lens).SiblingsApart) :
    (r.extend name kind v parent lens).Orderly := by
  unfold ElementRegistry.extend at hapart ⊢
  split at hapart
  · rename_i r' hregister
    exact hr.register_fresh hregister hfresh hapart
  · exact hr

/-- An array with a form at its first place. -/
def formInArray : ElementRegistry :=
  (extend {} "outer" .array (.array []) none .identity).extend "mid" .dictionary (.object [])
    (some ⟨"outer"⟩) (.index 0)

/-- The form with two fields. -/
def fieldsInForm : ElementRegistry :=
  (formInArray.extend "x" (.leaf "slider") (.int 1) (some ⟨"mid"⟩) (.key "x")).extend "y"
    (.leaf "slider") (.int 0) (some ⟨"mid"⟩) (.key "y")

theorem fieldsInForm_orderly : fieldsInForm.Orderly :=
  .extend (.extend (.extend (.extend .empty (by decide) (by decide)) (by decide) (by decide))
    (by decide) (by decide)) (by decide) (by decide)

/-- A new value of `x` replaces that one field. -/
theorem fieldsInForm_replaces :
    fieldsInForm.Reached ∧ fieldsInForm.contains ⟨"x"⟩ = true ∧
      ∃ r' way old new, fieldsInForm.setValue ⟨"x"⟩ (.int 5) =
          .ok ((⟨"outer"⟩, .object [("0", .object [("x", .int 5)])]), r') ∧
        fieldsInForm.Up ⟨"x"⟩ way ∧ fieldsInForm.value? ⟨"outer"⟩ = some old ∧
        r'.value? ⟨"outer"⟩ = some new ∧ Replaced (pathTo way) old new (.int 5) := by
  refine ⟨fieldsInForm_orderly.reached, by decide, ?_⟩
  obtain ⟨root, patch, r', way, old, new, hset, hway, -, hold, hnew, -, -, -, horderly⟩ :=
    setValue_replaces fieldsInForm_orderly.reached (by decide : fieldsInForm.contains ⟨"x"⟩ = true)
      (.int 5)
  have hanswer : fieldsInForm.setValue ⟨"x"⟩ (.int 5) =
    .ok ((⟨"outer"⟩, .object [("0", .object [("x", .int 5)])]),
      fieldsInForm.writeThrough ⟨"x"⟩ (.int 5)) := rfl
  rw [hanswer] at hset
  obtain ⟨⟨rfl, rfl⟩, rfl⟩ : (_ = root ∧ _ = patch) ∧ _ = r' := by
    simpa only [Except.ok.injEq, Prod.mk.injEq] using hset
  exact ⟨_, way, old, new, hanswer, hway, hold, hnew, (horderly fieldsInForm_orderly).1⟩

/-- The same form after its array has been given a value of its own. -/
def formReset : ElementRegistry :=
  fieldsInForm.writeThrough ⟨"outer"⟩ (.array [.object [("x", .int 1), ("y", .int 9)]])

theorem formReset_reached : formReset.Reached :=
  .setValue fieldsInForm_orderly.reached
    (show fieldsInForm.setValue ⟨"outer"⟩ (.array [.object [("x", .int 1), ("y", .int 9)]]) =
      .ok ((⟨"outer"⟩, .array [.object [("x", .int 1), ("y", .int 9)]]), formReset) from rfl)

/-- **A write that brings an old value back.**  The array holds 9 for `y`, the form still holds
0; a new value of `x` writes the form's copy into the array. -/
theorem formReset_restores :
    ¬ ∀ (r r' : ElementRegistry) (id root : ElementId) (v patch : Json), r.Reached →
      r.setValue id v = .ok ((root, patch), r') →
      ∃ way old new, r.Up id way ∧ r.value? root = some old ∧ r'.value? root = some new ∧
        Replaced (pathTo way) old new v := by
  intro hclaim
  obtain ⟨way, old, new, hway, hold, hnew, hreplaced⟩ :=
    hclaim formReset (formReset.writeThrough ⟨"x"⟩ (.int 5)) ⟨"x"⟩ ⟨"outer"⟩ (.int 5)
      (.object [("0", .object [("x", .int 5)])]) formReset_reached rfl
  have hpath : pathTo way = [.index 0, .key "x"] := by
    rw [← lineage_eq hway formReset_reached.keyed formReset_reached.acyclic]
    rfl
  have hbeside : BesideAlong (pathTo way) [.index 0, .key "y"] := by
    have hne : (Lens.key "x").Apart (.key "y") := by decide
    rw [hpath]
    exact .inr ⟨rfl, .inl hne.beside⟩
  have hspared := hreplaced.spared _ hbeside
  obtain rfl : .array [.object [("x", .int 1), ("y", .int 9)]] = old := Option.some.inj hold
  obtain rfl : .array [.object [("x", .int 5), ("y", .int 0)]] = new := Option.some.inj hnew
  cases (show Json.int 0 = .int 9 from hspared)

end ElementRegistry

end Notebook
