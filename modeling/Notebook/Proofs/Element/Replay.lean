/-
  Notebook.Proofs.Element.Replay — building the same elements again leaves the registry as it is.

  When elements are built on an empty registry, siblings at different positions, every value is
  written through as soon as it is there: to write it into the value of the parent once more would
  change nothing.  A new value of an element without children keeps it so, whatever the values on the
  way up have become, since of two writes at one position the second counts and writes at different
  positions do not disturb each other.

  An element that is built again unchanged keeps its value and its children, and its parent has it
  as a child already.  All that is done is to write its value through, and that changes nothing.

  Main results:
    * `ElementRegistry.WrittenThrough.writeThrough`, `ElementRegistry.WrittenThrough.register_fresh` —
      what keeps all values written through,
    * `ElementRegistry.Stands.register_again` — one element that is built again,
    * `ElementRegistry.registerAll_again` — all of them.
-/
import Notebook.Proofs.Element.Rerun
import Notebook.Proofs.Element.Superseded

namespace Notebook

namespace ElementRegistry

variable {r r₁ r' : ElementRegistry} {id x c p : ElementId} {v w : Json} {e : Element}
  {spec : ElementSpec} {parent : Option ElementId} {lens : Lens} {builds done : List Build}
  {b : Build}

/-! ## §1. Values that are written through. -/

/-- To write an element's value into the value of its parent once more would change nothing. -/
def WrittenThrough (r : ElementRegistry) : Prop :=
  ∀ p v, r.value? p = some v → ∀ c k w, r.link? c = some k → k.parent = some p →
    r.value? c = some w → k.lens.write v w = v

namespace WrittenThrough

/-- A value that is written through, for an element without children: of two writes at one position
the second counts, and writes at different positions can change places. -/
theorem of_writeThrough (hkeyed : r.Keyed) (hacyclic : r.Acyclic) (hindep : r.Independent)
    (he : r.get? id = some e) (hleaf : ∀ c k, r.link? c = some k → k.parent ≠ some id)
    (hbut : ∀ p v c k w, r.value? p = some v → c ≠ id → r.link? c = some k → k.parent = some p →
      r.value? c = some w → k.lens.write v w = v) (v : Json) :
    (r.writeThrough id v).WrittenThrough := by
  refine related_writeThrough (R := fun lens parent child => lens.write parent child = parent)
    (fun lens parent child => lens.write_write parent child child) ?_ hkeyed hacyclic hindep he
    (fun c k w hk hparent _ => absurd hparent (hleaf c k hk)) hbut
  intro lens other parent child hother hapart value
  calc other.write (lens.write parent value) child
      = lens.write (other.write parent child) value := (Lens.write_comm hapart ..).symm
    _ = lens.write parent value := by rw [hother]

/-- A new value of an element without children. -/
theorem writeThrough (h : r.WrittenThrough) (hkeyed : r.Keyed) (hacyclic : r.Acyclic)
    (hindep : r.Independent) (he : r.get? id = some e)
    (hleaf : ∀ c k, r.link? c = some k → k.parent ≠ some id) (v : Json) :
    (r.writeThrough id v).WrittenThrough :=
  of_writeThrough hkeyed hacyclic hindep he hleaf
    (fun p v c k w hv _ hk hparent hw => h p v hv c k w hk hparent hw) v

/-- To write a value through that an element has already changes no value. -/
theorem writeThrough_same (h : r.WrittenThrough) (hkeyed : r.Keyed) (hacyclic : r.Acyclic)
    (hv : r.value? id = some v) : (r.writeThrough id v).value? = r.value? := by
  obtain ⟨e, he, -⟩ := Option.map_eq_some_iff.1 hv
  -- what is written on the way up is what is there
  have hsame : ∀ x w, r.Written id v x w → r.value? x = some w := by
    intro x w hx
    induction hx with
    | here => exact hv
    | @above c p w ec ep _ hec hparent hep ih =>
      have hkept := h p _ (value?_eq_some hep) c _ w (link?_eq_some hec) hparent ih
      rw [value?_eq_some hep, hkept]
  funext x
  by_cases hx : ∃ w, r.Written id v x w
  · obtain ⟨w, hx⟩ := hx
    rw [value?_writeThrough_of_written hkeyed hacyclic he hx, hsame x w hx]
  · exact value?_writeThrough_of_not_written hkeyed hacyclic he (not_exists.1 hx)

/-- A fresh element. -/
theorem register_fresh (h : r.WrittenThrough) (hkeyed : r.Keyed) (hfresh : r.IsFresh spec.id)
    (hok : r.register spec parent lens = .ok r') (hacyclic : r'.Acyclic)
    (hindep : r'.Independent) : r'.WrittenThrough := by
  have hself : parent ≠ some spec.id := by
    intro hparent
    subst hparent
    have hlive := contains_of_register hok
    rw [hfresh.1] at hlive
    cases hlive
  obtain ⟨r₁, hput, hdone⟩ := register_eq_ok hok
  have hleaf : ∀ c k, r₁.link? c = some k → k.parent ≠ some spec.id := by
    intro c k hk
    rw [hput.link] at hk
    split at hk
    · obtain rfl := Option.some.inj hk
      exact hself
    · exact hfresh.parent_ne hk
  have hbut : ∀ p v c k w, r₁.value? p = some v → c ≠ spec.id → r₁.link? c = some k →
      k.parent = some p → r₁.value? c = some w → k.lens.write v w = v := by
    intro p v c k w hv hne hk hparent hw
    have hp : p ≠ spec.id := fun heq => hleaf c k hk (heq ▸ hparent)
    rw [hput.value, if_neg hp] at hv
    rw [hput.link, if_neg hne] at hk
    rw [hput.value, if_neg hne] at hw
    exact h p v hv c k w hk hparent hw
  rcases hdone with rfl | ⟨htop, rfl⟩
  · have hlinks := link?_writeThrough r₁ spec.id (r.firstValue spec)
    have hlink : r₁.link? spec.id = some ⟨spec.id, parent, lens⟩ := by rw [hput.link, if_pos rfl]
    obtain ⟨e, he, -⟩ := Option.map_eq_some_iff.1 hlink
    exact of_writeThrough (hput.keyed hkeyed) (hacyclic.congr hlinks.symm)
      (hindep.congr hlinks.symm) he hleaf hbut _
  · intro p v hv c k w hk hparent hw
    refine hbut p v c k w hv ?_ hk hparent hw
    intro heq
    rw [hput.link, if_pos heq] at hk
    obtain rfl := Option.some.inj hk
    rw [htop] at hparent
    cases hparent

end WrittenThrough

/-! ## §2. Elements that stand as they were built. -/

/-- How an element is registered when it is built. -/
def Build.fixture (b : Build) : Fixture :=
  ⟨b.spec.id, b.spec.kind, b.spec.fingerprint, b.spec.cell, b.parent, b.lens⟩

/-- Children of one parent are built at different places, or under different keys. -/
def BuiltApart (builds : List Build) : Prop :=
  ∀ b ∈ builds, ∀ b' ∈ builds, b.spec.id ≠ b'.spec.id → b.parent.isSome → b.parent = b'.parent →
    b.lens.Apart b'.lens

instance (builds : List Build) : Decidable (BuiltApart builds) :=
  inferInstanceAs (Decidable (∀ b ∈ builds, ∀ b' ∈ builds, _))

/-- The elements of a registry stand as they were built, each one in the list of its parent, and their
values are written through. -/
structure Stands (r : ElementRegistry) (builds : List Build) : Prop where
  keyed : r.Keyed
  acyclic : r.Acyclic
  built : ∀ x, r.contains x = true → Builds builds x
  fixture : ∀ b ∈ builds, r.fixture? b.spec.id = some b.fixture
  adopted : ∀ b ∈ builds, ∀ p ∈ b.parent, b.spec.id ∈ r.childrenOf p
  writtenThrough : r.WrittenThrough

theorem link?_of_fixture? {f : Fixture} (h : r.fixture? x = some f) :
    r.link? x = some ⟨f.id, f.parent, f.lens⟩ := by
  obtain ⟨e, he, rfl⟩ := Option.map_eq_some_iff.1 h
  exact link?_eq_some he

/-- Where an element is, it was built. -/
theorem exists_build (hbuilt : ∀ x, r.contains x = true → Builds builds x)
    (hfixture : ∀ b ∈ builds, r.fixture? b.spec.id = some b.fixture) {k : Link}
    (hk : r.link? x = some k) :
    ∃ b ∈ builds, b.spec.id = x ∧ k = ⟨b.spec.id, b.parent, b.lens⟩ := by
  obtain ⟨e, he⟩ := exists_get?_of_link? (hk ▸ rfl : (r.link? x).isSome)
  obtain ⟨b, hb, rfl⟩ := hbuilt x (contains_of_get? he)
  have hlink := link?_of_fixture? (hfixture b hb)
  exact ⟨b, hb, rfl, Option.some.inj (hk.symm.trans hlink)⟩

/-- Siblings stand at different positions if they were built there. -/
theorem independent_of_builds (hbuilt : ∀ x, r.contains x = true → Builds builds x)
    (hfixture : ∀ b ∈ builds, r.fixture? b.spec.id = some b.fixture)
    (hapart : BuiltApart builds) : r.Independent := by
  intro c c' k k' p hne hk hk' hparent hparent' _
  obtain ⟨b, hb, rfl, rfl⟩ := exists_build hbuilt hfixture hk
  obtain ⟨b', hb', rfl, rfl⟩ := exists_build hbuilt hfixture hk'
  change b.parent = some p at hparent
  change b'.parent = some p at hparent'
  refine hapart b hb b' hb' hne ?_ (hparent.trans hparent'.symm)
  rw [hparent]
  rfl

namespace Stands

theorem empty : Stands {} [] where
  keyed := fun _ _ hk => nomatch hk
  acyclic := Reached.empty.acyclic
  built := fun _ hx => nomatch hx
  fixture := fun _ hb => nomatch hb
  adopted := fun _ hb => nomatch hb
  writtenThrough := fun _ _ hv => nomatch hv

theorem independent (h : r.Stands builds) (hapart : BuiltApart builds) : r.Independent :=
  independent_of_builds h.built h.fixture hapart

/-- An element that was not built is fresh: nothing is under it either. -/
theorem isFresh (h : r.Stands done) (hnested : Nested done) (hnew : ¬ Builds done id) :
    r.IsFresh id := by
  constructor
  · exact Bool.eq_false_iff.2 fun hlive => hnew (h.built id hlive)
  · intro e he hparent
    obtain ⟨x, hx⟩ := exists_get?_of_mem_values he
    obtain ⟨b, hb, -, hk⟩ := exists_build h.built h.fixture (link?_eq_some hx)
    have hunder : b.parent = some id := by
      rw [← hparent]
      exact (congrArg Link.parent hk).symm
    exact hnew (hnested.builds_of_under ⟨b, hb, rfl, hunder⟩)

/-- **One more element.** -/
theorem concat (h : r.Stands done) (hdistinct : Distinct (done ++ [b]))
    (hnested : Nested (done ++ [b])) (hapart : BuiltApart (done ++ [b]))
    (hok : r.register b.spec b.parent b.lens = .ok r') : r'.Stands (done ++ [b]) := by
  obtain ⟨-, hnew⟩ := hdistinct.of_concat
  have hfresh := h.isFresh hnested.of_concat.1 hnew
  have hacyclic := h.acyclic.register_fresh hok hfresh
  have hbuilds : ∀ x, r'.contains x = true → Builds (done ++ [b]) x := by
    intro x hx
    rw [contains_register h.keyed hok] at hx
    rw [builds_concat]
    exact hx.symm.imp (h.built x) Eq.symm
  have hfixture : ∀ d ∈ done ++ [b], r'.fixture? d.spec.id = some d.fixture := by
    intro d hd
    rw [fixture?_register h.keyed hok]
    rcases List.mem_append.1 hd with hd | hd
    · rw [if_neg fun heq => hnew ⟨d, hd, heq⟩]
      exact h.fixture d hd
    · obtain rfl := List.mem_singleton.1 hd
      rw [if_pos rfl]
      rfl
  refine ⟨h.keyed.register hok, hacyclic, hbuilds, hfixture, fun d hd p hp => ?_, ?_⟩
  · rw [mem_childrenOf_register h.keyed hok]
    rcases List.mem_append.1 hd with hd | hd
    · -- a child that was there stays: the list is not that of the new element
      have hmem := h.adopted d hd p hp
      have hne : p ≠ b.spec.id := by
        intro heq
        rw [heq] at hmem
        exact hnew (h.built _ (contains_of_mem_childrenOf hmem))
      refine .inl ((mem_spared_of_ne hne).2 ⟨hmem, fun hout => hnew ?_⟩)
      exact ⟨d, hd, hout.1⟩
    · obtain rfl := List.mem_singleton.1 hd
      exact .inr ⟨rfl, hp⟩
  · exact h.writtenThrough.register_fresh h.keyed hfresh hok hacyclic
      (independent_of_builds hbuilds hfixture hapart)

/-- A new value of an element that nothing was built under. -/
theorem writeThrough (h : r.Stands builds) (hapart : BuiltApart builds)
    (hleaf : ∀ b ∈ builds, b.parent ≠ some id) (he : r.get? id = some e) (v : Json) :
    (r.writeThrough id v).Stands builds := by
  have halike := alike_writeThrough r id v
  have hlinks := link?_writeThrough r id v
  refine ⟨h.keyed.congr hlinks, h.acyclic.congr hlinks, fun x hx => ?_, fun b hb => ?_,
    fun b hb p hp => ?_, ?_⟩
  · rw [halike.contains] at hx
    exact h.built x hx
  · rw [halike.fixture]
    exact h.fixture b hb
  · rw [halike.children]
    exact h.adopted b hb p hp
  · refine h.writtenThrough.writeThrough h.keyed h.acyclic (h.independent hapart) he ?_ v
    intro c k hk hparent
    obtain ⟨b, hb, -, rfl⟩ := exists_build h.built h.fixture hk
    exact hleaf b hb hparent

end Stands

/-! ## §3. Building again. -/

/-- An element that was built unchanged at the same place is put in as it was. -/
theorem PutIn.same (hput : r.PutIn spec parent lens r₁) (hrebuilt : r.rebuilds spec = true)
    (hlink : r.link? spec.id = some ⟨spec.id, parent, lens⟩) :
    r₁.link? = r.link? ∧ r₁.value? = r.value? := by
  obtain ⟨e, he⟩ := exists_get?_of_link? (hlink ▸ rfl : (r.link? spec.id).isSome)
  have hkept : r.firstValue spec = e.value := by
    rw [rebuilds, he, Option.any_some, decide_eq_true_eq] at hrebuilt
    rw [firstValue, he]
    exact if_pos hrebuilt
  constructor
  · funext x
    rw [hput.link]
    split
    · rename_i hx
      rw [hx, hlink]
    · rfl
  · funext x
    rw [hput.value]
    split
    · rename_i hx
      rw [hx, hkept, value?_eq_some he]
    · rfl

namespace Stands

/-- **An element that is built again changes nothing.**  It keeps its value and its children, its
parent has it already, and its value is written through already. -/
theorem register_again (h : r.Stands builds) (hb : b ∈ builds) :
    r.register b.spec b.parent b.lens = .ok r := by
  have hparent : ∀ p ∈ b.parent, r.contains p = true := fun p hp =>
    contains_of_mem_childrenOf (h.adopted b hb p hp)
  obtain ⟨r', hok⟩ := exists_register b.spec b.lens hparent
  have hrebuilt : r.rebuilds b.spec = true := by
    rw [rebuilds_eq, h.fixture b hb]
    simp [Build.fixture]
  have hfixture : r'.fixture? = r.fixture? := by
    funext x
    rw [fixture?_register h.keyed hok]
    split
    · rename_i hx
      rw [hx]
      exact (h.fixture b hb).symm
    · rfl
  have hcontains : ∀ x, r'.contains x = r.contains x := by
    intro x
    rw [← isSome_fixture?, hfixture, isSome_fixture?]
  have hchildren : r'.childrenOf = r.childrenOf := by
    funext x
    cases hx : r'.contains x with
    | false => rw [childrenOf_eq_nil hx, childrenOf_eq_nil (hcontains x ▸ hx)]
    | true =>
      have hspared : r.spared b.spec x = r.childrenOf x := by
        by_cases hid : x = b.spec.id
        · rw [spared, if_pos hid, if_pos hrebuilt]
        · exact spared_eq_self hid (.inl hrebuilt)
      rw [childrenOf_register h.keyed hok hx, hspared, withAdopted, if_neg]
      intro hnot
      exact hnot.2 (h.adopted b hb x hnot.1)
  have hvalues : r'.value? = r.value? := by
    obtain ⟨r₁, hput, hdone⟩ := register_eq_ok hok
    obtain ⟨hlinks, hsame⟩ := hput.same hrebuilt (link?_of_fixture? (h.fixture b hb))
    have hwritten : r₁.WrittenThrough := by
      unfold WrittenThrough
      rw [hlinks, hsame]
      exact h.writtenThrough
    have hown : r₁.value? b.spec.id = some (r.firstValue b.spec) := by rw [hput.value, if_pos rfl]
    rcases hdone with rfl | ⟨-, rfl⟩
    · rw [hwritten.writeThrough_same (h.keyed.congr hlinks) (h.acyclic.congr hlinks) hown, hsame]
    · exact hsame
  rw [hok, eq_of_alike ⟨hfixture, hchildren⟩ hvalues (names_register hok)]

/-- So do several of them. -/
theorem registerAll_eq (h : r.Stands builds) {again : List Build}
    (hsub : ∀ b ∈ again, b ∈ builds) : r.registerAll again = .ok r := by
  induction again with
  | nil => rfl
  | cons first rest ih =>
    rw [registerAll, List.foldlM_cons, h.register_again (hsub first List.mem_cons_self)]
    exact ih fun b hb => hsub b (List.mem_cons_of_mem _ hb)

end Stands

/-- Elements that are built one after the other stand as they were built. -/
theorem exists_stands (hdistinct : Distinct builds) (hnested : Nested builds)
    (hapart : BuiltApart builds) : ∃ r, registerAll {} builds = .ok r ∧ r.Stands builds := by
  induction builds using List.reverseRecOn with
  | nil => exact ⟨{}, rfl, .empty⟩
  | append_singleton done b ih =>
    have hsome : BuiltApart done := fun d hd d' hd' =>
      hapart d (List.mem_append_left _ hd) d' (List.mem_append_left _ hd')
    obtain ⟨hfirst, hparent⟩ := hnested.of_concat
    obtain ⟨r, hdone, hstands⟩ := ih hdistinct.of_concat.1 hfirst hsome
    obtain ⟨r', hok⟩ := exists_register (r := r) b.spec b.lens fun p hp => by
      obtain ⟨d, hd, rfl⟩ := hparent p hp
      rw [← isSome_fixture?, hstands.fixture d hd]
      rfl
    exact ⟨r', registerAll_concat hdone hok, hstands.concat hdistinct hnested hapart hok⟩

/-- Gives elements new values, one after the other. -/
def setAll (r : ElementRegistry) (values : List (ElementId × Json)) : ElementRegistry :=
  values.foldl (fun r (id, v) => r.perform (.setValue id v)) r

theorem Stands.setAll (h : r.Stands builds) (hapart : BuiltApart builds)
    {values : List (ElementId × Json)} (hleaf : ∀ s ∈ values, ∀ b ∈ builds, b.parent ≠ some s.1) :
    (r.setAll values).Stands builds := by
  induction values generalizing r with
  | nil => exact h
  | cons first rest ih =>
    refine ih ?_ fun s hs => hleaf s (List.mem_cons_of_mem _ hs)
    show (r.perform (.setValue first.1 first.2)).Stands builds
    unfold perform
    dsimp only
    split
    · rename_i answer r' hset
      obtain ⟨hfound, rfl⟩ := setValue_eq_ok_iff.1 hset
      obtain ⟨e, he⟩ := get?_of_resolve hfound
      exact h.writeThrough hapart (hleaf first List.mem_cons_self) he first.2
    · exact h

/-- **Building the same elements again changes nothing.**  Elements are built on an empty registry,
each once, at the top or under one that was built before, siblings at different places or under
different keys.  Then elements without children are given new values.  When all the elements are
built again after that, in the same order, the whole registry is left as it was. -/
theorem registerAll_again (hdistinct : Distinct builds) (hnested : Nested builds)
    (hapart : BuiltApart builds) (values : List (ElementId × Json))
    (hleaf : ∀ s ∈ values, ∀ b ∈ builds, b.parent ≠ some s.1) :
    ∃ r, registerAll {} builds = .ok r ∧
      (r.setAll values).registerAll builds = .ok (r.setAll values) := by
  obtain ⟨r, hbuilt, hstands⟩ := exists_stands hdistinct hnested hapart
  exact ⟨r, hbuilt, (hstands.setAll hapart hleaf).registerAll_eq fun _ hb => hb⟩

/-- A form with one field in an array, and a slider beyond the end of what the array holds. -/
def formBesideSlider : List Build :=
  [⟨plainSpec "a" .array, none, .identity⟩,
    ⟨plainSpec "f" .batch, some ⟨"a"⟩, .index 0⟩,
    ⟨plainSpec "y" (.leaf "text"), some ⟨"f"⟩, .key "k"⟩,
    ⟨plainSpec "x" (.leaf "slider"), some ⟨"a"⟩, .index 2⟩]

/-- New values of the slider and of the field, and one for nothing. -/
def slidAndTyped : List (ElementId × Json) :=
  [(⟨"x"⟩, .int 5), (⟨"y"⟩, .string "t"), (⟨"gone"⟩, .null), (⟨"x"⟩, .int 7)]

/-- The array has the new values, and all four elements can be built again. -/
theorem formBesideSlider_again : ∃ r, registerAll {} formBesideSlider = .ok r ∧
    (r.setAll slidAndTyped).value? ⟨"a"⟩ =
      some (.array [.object [("k", .string "t")], .null, .int 7]) ∧
    (r.setAll slidAndTyped).registerAll formBesideSlider = .ok (r.setAll slidAndTyped) := by
  have hdistinct : Distinct formBesideSlider := by
    unfold Distinct
    decide
  have hnested : Nested formBesideSlider := forall_steps_iff.2 (by decide)
  have hvalue : (registerAll {} formBesideSlider).map
      (fun r => (r.setAll slidAndTyped).value? ⟨"a"⟩) =
        .ok (some (.array [.object [("k", .string "t")], .null, .int 7])) := by rfl
  obtain ⟨r, hbuilt, hagain⟩ := registerAll_again hdistinct hnested (by decide) slidAndTyped
    (by decide)
  rw [hbuilt] at hvalue
  exact ⟨r, hbuilt, Except.ok.inj hvalue, hagain⟩

end ElementRegistry

end Notebook
