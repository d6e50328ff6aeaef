/-
  Notebook.Proofs.Element.Rerun — what a re-run of a cell leaves of its elements.

  A re-run unbinds the names of the cell, registers the elements that the cell builds now, binds
  names to some of them, and collects what no name reaches.  Elements that were not built again
  should then be gone.  A composite that is built again unchanged keeps its list of children,
  though, so it keeps alive what was under it and is not built any more, and it lists what is built
  elsewhere now.

  Main results:
    * `ElementRegistry.Built.concat` — what one more element does, in terms of the first registry,
    * `ElementRegistry.rerun_leaves_iff` — when a re-run leaves nothing stale,
    * `ElementRegistry.rerun_keeps_dropped_child` — the smallest re-run that leaves something.
-/
import Notebook.Proofs.Element.Mirror

namespace Notebook

namespace ElementRegistry

variable {r r₀ r₁ r₂ r' : ElementRegistry} {x c p : ElementId} {cell : CellId}

/-! ## §1. Re-runs. -/

/-- An element that a cell builds. -/
structure Build where
  spec : ElementSpec
  parent : Option ElementId
  lens : Lens

/-- Registers elements, one after the other. -/
def registerAll (r : ElementRegistry) (builds : List Build) : Except Error ElementRegistry :=
  builds.foldlM (fun r b => r.register b.spec b.parent b.lens) r

/-- A re-run of a cell. -/
structure Rerun where
  cell : CellId
  /-- The names that the cell bound in earlier runs. -/
  own : List String
  builds : List Build
  bindings : List (String × ElementId)

/-- What a re-run evicts, and what it leaves. -/
def Rerun.carryOut (run : Rerun) (r : ElementRegistry) :
    Except Error (List ElementId × ElementRegistry) :=
  ((run.own.foldl unbind r).registerAll run.builds).map fun r =>
    (run.bindings.foldl (fun r (name, id) => r.bind name id) r).collectGarbage

/-- The element is among those that are built. -/
def Builds (builds : List Build) (x : ElementId) : Prop := ∃ b ∈ builds, b.spec.id = x

instance (builds : List Build) (x : ElementId) : Decidable (Builds builds x) :=
  inferInstanceAs (Decidable (∃ b ∈ builds, _))

/-- The element is built under a composite. -/
def BuildsUnder (builds : List Build) (p c : ElementId) : Prop :=
  ∃ b ∈ builds, b.spec.id = c ∧ b.parent = some p

instance (builds : List Build) (p c : ElementId) : Decidable (BuildsUnder builds p c) :=
  inferInstanceAs (Decidable (∃ b ∈ builds, _))

/-- No element is built twice. -/
def Distinct (builds : List Build) : Prop := (builds.map fun b => b.spec.id).Nodup

/-- Each element is built at the top or under one that was built before. -/
def Nested (builds : List Build) : Prop :=
  ∀ done b, done ++ [b] <+: builds → ∀ p ∈ b.parent, Builds done p

/-- A registered element that a cell created. -/
def IsOf (r : ElementRegistry) (cell : CellId) (x : ElementId) : Prop :=
  (r.get? x).map Element.cell = some cell

instance (r : ElementRegistry) (cell : CellId) (x : ElementId) : Decidable (r.IsOf cell x) :=
  inferInstanceAs (Decidable (_ = _))

/-- The elements that are built are the cell's, each is built at the top or under one that was built
before, names are bound to built elements, and no other name is bound to an element of the cell. -/
structure Rerun.IsFor (run : Rerun) (r : ElementRegistry) : Prop where
  own : ∀ b ∈ run.builds, b.spec.cell = run.cell
  nested : Nested run.builds
  bound : ∀ binding ∈ run.bindings, Builds run.builds binding.2
  alone : ∀ name x, r.names.get? name = some x → name ∉ run.own → ¬ r.IsOf run.cell x

/-- Nothing stale is left: every element of the cell was built in the re-run, and its children are
those that were built under it. -/
structure Rerun.LeavesNothingStale (run : Rerun) (r' : ElementRegistry) : Prop where
  elements : ∀ x, r'.IsOf run.cell x → Builds run.builds x
  children : ∀ p, r'.IsOf run.cell p → ∀ c, c ∈ r'.childrenOf p ↔ BuildsUnder run.builds p c

/-! ## §2. Building elements. -/

/-- An element that is not built, or each time unchanged: it never starts anew. -/
def Keeps (r : ElementRegistry) (builds : List Build) (p : ElementId) : Prop :=
  ∀ b ∈ builds, b.spec.id = p → r.rebuilds b.spec = true

/-- An element that starts anew and was under `p` is taken out of the list of `p`. -/
def TakenOut (r : ElementRegistry) (builds : List Build) (p c : ElementId) : Prop :=
  ∃ b ∈ builds, b.spec.id = c ∧ r.rebuilds b.spec = false ∧ r.parent? c = some p

theorem builds_concat {done : List Build} {b : Build} :
    Builds (done ++ [b]) x ↔ Builds done x ∨ b.spec.id = x := by
  simp [Builds, or_and_right, exists_or]

theorem buildsUnder_concat {done : List Build} {b : Build} :
    BuildsUnder (done ++ [b]) p c ↔ BuildsUnder done p c ∨ (b.spec.id = c ∧ b.parent = some p) := by
  simp [BuildsUnder, or_and_right, exists_or]

theorem keeps_concat {done : List Build} {b : Build} :
    r.Keeps (done ++ [b]) p ↔ r.Keeps done p ∧ (b.spec.id = p → r.rebuilds b.spec = true) := by
  simp [Keeps, or_imp, forall_and]

theorem takenOut_concat {done : List Build} {b : Build} : r.TakenOut (done ++ [b]) p c ↔
    r.TakenOut done p c ∨ (b.spec.id = c ∧ r.rebuilds b.spec = false ∧ r.parent? c = some p) := by
  simp [TakenOut, or_and_right, exists_or]

theorem isOf_iff : r.IsOf cell x ↔ ∃ f, r.fixture? x = some f ∧ f.cell = cell := by
  rw [IsOf, fixture?]
  cases r.get? x <;> simp

theorem rebuilds_eq (r : ElementRegistry) (spec : ElementSpec) :
    r.rebuilds spec = (r.fixture? spec.id).any fun f =>
      f.fingerprint = spec.fingerprint ∧ f.kind = spec.kind := by
  rw [rebuilds, fixture?, Option.any_map]

theorem bind_parent_eq (r : ElementRegistry) (x : ElementId) :
    (r.get? x).bind Element.parent = (r.fixture? x).bind Fixture.parent := by
  rw [fixture?]
  cases r.get? x <;> rfl

/-- **What building elements leaves, in terms of the first registry.** -/
structure Built (r : ElementRegistry) (done : List Build) (r₁ : ElementRegistry) : Prop where
  keyed : r₁.Keyed
  sound : r₁.Sound
  live : ∀ x, r₁.contains x = true ↔ r.contains x = true ∨ Builds done x
  others : ∀ x, ¬ Builds done x → r₁.fixture? x = r.fixture? x
  cells : ∀ cell, (∀ b ∈ done, b.spec.cell = cell) → ∀ x, Builds done x → r₁.IsOf cell x
  /-- What never started anew has its fingerprint still. -/
  rebuilds : ∀ spec, r.Keeps done spec.id → r₁.rebuilds spec = r.rebuilds spec
  /-- An element that is not built stays under the composites that never started anew. -/
  left : ∀ p c, ¬ Builds done c → (c ∈ r₁.childrenOf p ↔ c ∈ r.childrenOf p ∧ r.Keeps done p)
  /-- If no element is built twice, this is every list of children. -/
  children : Distinct done → Nested done → ∀ p c,
    c ∈ r₁.childrenOf p ↔ BuildsUnder done p c ∨
      (c ∈ r.childrenOf p ∧ r.Keeps done p ∧ ¬ r.TakenOut done p c)

variable {done builds : List Build} {b : Build}

theorem Nested.of_concat (h : Nested (done ++ [b])) : Nested done ∧ ∀ p ∈ b.parent, Builds done p :=
  ⟨fun first d hfirst => h first d (hfirst.trans (List.prefix_append _ _)),
    h done b (List.prefix_refl _)⟩

/-- Nothing is built under an element that was not built. -/
theorem Nested.builds_of_under (h : Nested builds) (hunder : BuildsUnder builds p c) :
    Builds builds p := by
  obtain ⟨d, hd, -, hparent⟩ := hunder
  obtain ⟨first, rest, rfl⟩ := List.append_of_mem hd
  obtain ⟨b, hb, hid⟩ := h first d ⟨rest, by simp⟩ p hparent
  exact ⟨b, List.mem_append_left _ hb, hid⟩

theorem BuildsUnder.of_child (h : BuildsUnder builds p c) : Builds builds c := by
  obtain ⟨b, hb, hid, -⟩ := h
  exact ⟨b, hb, hid⟩

theorem Distinct.of_concat (h : Distinct (done ++ [b])) :
    Distinct done ∧ ¬ Builds done b.spec.id := by
  rw [Distinct, List.map_append, List.nodup_append] at h
  refine ⟨h.1, ?_⟩
  rintro ⟨d, hd, hid⟩
  exact h.2.2 _ (List.mem_map_of_mem hd) _ List.mem_cons_self hid

/-- What was not built keeps its list so far. -/
theorem keeps_of_not_builds (h : ¬ Builds builds p) : r.Keeps builds p :=
  fun b hb hid => absurd ⟨b, hb, hid⟩ h

namespace Built

theorem start (helements : r₀.elements = r.elements) (hkeyed : r.Keyed) (hsound : r.Sound) :
    r.Built [] r₀ := by
  obtain ⟨elements, names⟩ := r₀
  subst helements
  have hnone : ∀ x, ¬ Builds [] x := by simp [Builds]
  exact {
    keyed := hkeyed
    sound := ⟨hsound.live, hsound.nodup⟩
    live := fun x => (or_iff_left (hnone x)).symm
    others := fun _ _ => rfl
    cells := fun _ _ x hx => absurd hx (hnone x)
    rebuilds := fun _ _ => rfl
    left := fun p _ _ => (and_iff_left (keeps_of_not_builds (hnone p))).symm
    children := fun _ _ p c => by
      rw [or_iff_right fun hunder => hnone c hunder.of_child]
      have hkeeps : r.Keeps [] p := keeps_of_not_builds (hnone p)
      have hstays : ¬ r.TakenOut [] p c := by simp [TakenOut]
      exact (and_iff_left ⟨hkeeps, hstays⟩).symm }

/-- Names play no part in it. -/
theorem congr (h : r.Built done r₁) (helements : r₂.elements = r₁.elements) : r.Built done r₂ := by
  obtain ⟨elements, names⟩ := r₂
  subst helements
  exact { h with sound := ⟨h.sound.live, h.sound.nodup⟩ }

/-- What never started anew is registered with the fingerprint that it is built with. -/
theorem rebuilds_concat (h : r.Built done r₁)
    (hb : r₁.register b.spec b.parent b.lens = .ok r₂) (spec : ElementSpec)
    (hkeeps : r.Keeps (done ++ [b]) spec.id) : r₂.rebuilds spec = r.rebuilds spec := by
  obtain ⟨hdone, hlast⟩ := keeps_concat.1 hkeeps
  rw [rebuilds_eq, fixture?_register h.keyed hb]
  split
  · -- it was registered with this fingerprint in the first place
    rename_i hid
    have hsame := hlast hid.symm
    rw [rebuilds_eq, Option.any_eq_true] at hsame
    obtain ⟨f, hf, hfp⟩ := hsame
    rw [rebuilds_eq, hid, hf]
    obtain ⟨hfp, hkind⟩ := of_decide_eq_true hfp
    simp only [Option.any_some, hfp, hkind]
  · rw [← rebuilds_eq, h.rebuilds spec hdone]

theorem left_concat (h : r.Built done r₁) (hb : r₁.register b.spec b.parent b.lens = .ok r₂)
    (hc : ¬ Builds (done ++ [b]) c) :
    c ∈ r₂.childrenOf p ↔ c ∈ r.childrenOf p ∧ r.Keeps (done ++ [b]) p := by
  rw [builds_concat, not_or] at hc
  obtain ⟨hdone, hne⟩ := hc
  rw [mem_childrenOf_register h.keyed hb, or_iff_left fun hnew => hne hnew.1.symm, keeps_concat]
  by_cases hp : p = b.spec.id
  · subst hp
    rw [mem_spared_self, h.left _ _ hdone]
    constructor
    · rintro ⟨hrebuilt, hmem, hkeeps⟩
      exact ⟨hmem, hkeeps, fun _ => by rwa [← h.rebuilds _ hkeeps]⟩
    · rintro ⟨hmem, hkeeps, hlast⟩
      exact ⟨by rw [h.rebuilds _ hkeeps, hlast rfl], hmem, hkeeps⟩
  · rw [mem_spared_of_ne hp, and_iff_left fun hown => hne hown.1.symm, h.left _ _ hdone,
      and_iff_left fun heq => absurd heq.symm hp]

theorem children_concat (h : r.Built done r₁) (hb : r₁.register b.spec b.parent b.lens = .ok r₂)
    (hdistinct : Distinct (done ++ [b])) (hnested : Nested (done ++ [b])) :
    c ∈ r₂.childrenOf p ↔ BuildsUnder (done ++ [b]) p c ∨
      (c ∈ r.childrenOf p ∧ r.Keeps (done ++ [b]) p ∧ ¬ r.TakenOut (done ++ [b]) p c) := by
  obtain ⟨hdistinct, hnew⟩ := hdistinct.of_concat
  obtain ⟨hnested, -⟩ := hnested.of_concat
  have hrebuilds := h.rebuilds b.spec (keeps_of_not_builds hnew)
  rw [mem_childrenOf_register h.keyed hb, buildsUnder_concat, keeps_concat, takenOut_concat]
  by_cases hp : p = b.spec.id
  · subst hp
    have hnone : ¬ BuildsUnder done b.spec.id c := fun hunder => hnew (hnested.builds_of_under hunder)
    rw [mem_spared_self, h.children hdistinct hnested, hrebuilds]
    grind
  · have hplace : c ∈ r.childrenOf p →
        ((r₁.get? b.spec.id).bind Element.parent = some p ↔ r.parent? b.spec.id = some p) := by
      intro hmem
      rw [bind_parent_eq, h.others _ hnew, ← bind_parent_eq, parent?, Option.filter_eq_some_iff,
        and_iff_left (contains_of_mem_childrenOf hmem)]
    have hother : BuildsUnder done p c → c ≠ b.spec.id := fun hunder heq =>
      hnew (heq ▸ hunder.of_child)
    rw [mem_spared_of_ne hp, h.children hdistinct hnested, hrebuilds]
    grind

/-- **One more element.** -/
theorem concat (h : r.Built done r₁) (hb : r₁.register b.spec b.parent b.lens = .ok r₂) :
    r.Built (done ++ [b]) r₂ where
  keyed := h.keyed.register hb
  sound := h.sound.register h.keyed hb
  live := fun x => by
    rw [contains_register h.keyed hb, h.live, builds_concat, eq_comm, or_comm, or_assoc]
  others := fun x hx => by
    rw [builds_concat, not_or] at hx
    rw [fixture?_register h.keyed hb, if_neg (Ne.symm hx.2), h.others x hx.1]
  cells := fun cell hcells x hx => by
    rw [isOf_iff, fixture?_register h.keyed hb]
    split
    · exact ⟨_, rfl, hcells b (List.mem_append_right _ List.mem_cons_self)⟩
    · have hdone := (builds_concat.1 hx).resolve_right (Ne.symm ‹_›)
      exact isOf_iff.1 (h.cells cell (fun d hd => hcells d (List.mem_append_left _ hd)) x hdone)
  rebuilds := fun spec hkeeps => h.rebuilds_concat hb spec hkeeps
  left := fun _ _ hc => h.left_concat hb hc
  children := fun hdistinct hnested _ _ => h.children_concat hb hdistinct hnested

end Built

/-- Registering under a registered element, or under none, succeeds. -/
theorem exists_register (spec : ElementSpec) {parent : Option ElementId} (lens : Lens)
    (h : ∀ p ∈ parent, r.contains p = true) : ∃ r', r.register spec parent lens = .ok r' := by
  cases hregister : r.register spec parent lens with
  | ok r' => exact ⟨r', rfl⟩
  | error err =>
    obtain ⟨p, hp, hmissing⟩ := register_eq_error_iff.1 ⟨err, hregister⟩
    rw [h p hp] at hmissing
    cases hmissing

theorem registerAll_concat (hdone : r₀.registerAll done = .ok r₁)
    (hb : r₁.register b.spec b.parent b.lens = .ok r₂) :
    r₀.registerAll (done ++ [b]) = .ok r₂ := by
  rw [registerAll, List.foldlM_append]
  change (r₀.registerAll done >>= _) = _
  rw [hdone]
  change (r₁.register b.spec b.parent b.lens >>= pure) = _
  rw [hb]
  rfl

/-- **Nested elements can be built.** -/
theorem exists_registerAll (h : r.Built [] r₀) (hnested : Nested builds) :
    ∃ r₁, r₀.registerAll builds = .ok r₁ ∧ r.Built builds r₁ ∧ r₁.names = r₀.names := by
  induction builds using List.reverseRecOn with
  | nil => exact ⟨r₀, rfl, h, rfl⟩
  | append_singleton done b ih =>
    obtain ⟨hnested, hparent⟩ := hnested.of_concat
    obtain ⟨r₁, hdone, hbuilt, hnames⟩ := ih hnested
    obtain ⟨r₂, hb⟩ := exists_register b.spec b.lens
      fun p hp => (hbuilt.live p).2 (.inr (hparent p hp))
    exact ⟨r₂, registerAll_concat hdone hb, hbuilt.concat hb, (names_register hb).trans hnames⟩

/-! ## §3. Names. -/

theorem elements_unbindAll (r : ElementRegistry) (own : List String) :
    (own.foldl unbind r).elements = r.elements := by
  induction own generalizing r with
  | nil => rfl
  | cons name own ih => exact ih (r.unbind name)

theorem get?_names_unbindAll (r : ElementRegistry) (own : List String) (name : String) :
    (own.foldl unbind r).names.get? name = if name ∈ own then none else r.names.get? name := by
  induction own generalizing r with
  | nil => rfl
  | cons first own ih =>
    rw [List.foldl_cons, ih, unbind, Table.get?_erase]
    by_cases hown : name ∈ own <;> by_cases hfirst : name = first <;> simp [hown, hfirst]

theorem elements_bindAll (r : ElementRegistry) (bindings : List (String × ElementId)) :
    (bindings.foldl (fun r (name, id) => r.bind name id) r).elements = r.elements := by
  induction bindings generalizing r with
  | nil => rfl
  | cons first bindings ih => exact ih (r.bind first.1 first.2)

theorem get?_names_bindAll {bindings : List (String × ElementId)} {name : String}
    (h : (bindings.foldl (fun r (name, id) => r.bind name id) r).names.get? name = some x) :
    (name, x) ∈ bindings ∨ r.names.get? name = some x := by
  induction bindings generalizing r with
  | nil => exact .inr h
  | cons first bindings ih =>
    obtain ⟨bound, id⟩ := first
    rcases ih h with hmem | hold
    · exact .inl (List.mem_cons_of_mem _ hmem)
    · have hinsert := (Table.get?_insert r.names bound id name).symm.trans hold
      split at hinsert
      · obtain rfl := Option.some.inj hinsert
        exact .inl (‹name = bound› ▸ List.mem_cons_self)
      · exact .inr hinsert

/-! ## §4. What is left. -/

variable {run : Rerun}

theorem isOf_collectGarbage :
    r.collectGarbage.2.IsOf cell x ↔ x ∈ r.reachable ∧ r.IsOf cell x := by
  rw [IsOf, get?_collectGarbage]
  by_cases hx : x ∈ r.reachable <;> simp [hx, IsOf]

theorem IsOf.contains (h : r.IsOf cell x) : r.contains x = true := by
  obtain ⟨e, he, -⟩ := Option.map_eq_some_iff.1 h
  exact contains_of_get? he

/-- A re-run is carried out up to the collecting: the names that are bound then are bound to
elements that were built, or to elements of other cells. -/
theorem carryOut_eq (hkeyed : r.Keyed) (hsound : r.Sound) (hrun : run.IsFor r) :
    ∃ r₁, run.carryOut r = .ok r₁.collectGarbage ∧ r.Built run.builds r₁ ∧
      ∀ name x, r₁.names.get? name = some x → Builds run.builds x ∨ ¬ r.IsOf run.cell x := by
  obtain ⟨r₁, hbuild, hbuilt, hnames⟩ := exists_registerAll
    (Built.start (elements_unbindAll r run.own) hkeyed hsound) hrun.nested
  refine ⟨_, by rw [Rerun.carryOut, hbuild]; rfl, hbuilt.congr (elements_bindAll r₁ run.bindings),
    fun name x hx => ?_⟩
  rcases get?_names_bindAll hx with hbound | hold
  · exact .inl (hrun.bound _ hbound)
  · rw [hnames, get?_names_unbindAll] at hold
    split at hold
    · cases hold
    · exact .inr (hrun.alone name x hold ‹_›)

/-- Every element of the cell that is in the list of a composite that is still there and never
started anew is built again. -/
def Rerun.BringsBack (run : Rerun) (r r' : ElementRegistry) : Prop :=
  ∀ p, r'.contains p = true → r.Keeps run.builds p →
    ∀ c ∈ r.childrenOf p, r.IsOf run.cell c → Builds run.builds c

/-- Every element in the list of a composite that is built again unchanged is built under it again,
or taken out as it starts anew. -/
def Rerun.PutsBack (run : Rerun) (r r' : ElementRegistry) : Prop :=
  ∀ p, r'.contains p = true → Builds run.builds p → r.Keeps run.builds p →
    ∀ c ∈ r.childrenOf p, BuildsUnder run.builds p c ∨ r.TakenOut run.builds p c

namespace Built

/-- Elements that were not built are the cell's if they were before. -/
theorem isOf_iff_of_not_builds (h : r.Built builds r₁) (hx : ¬ Builds builds x) :
    r₁.IsOf cell x ↔ r.IsOf cell x := by
  rw [isOf_iff, isOf_iff, h.others x hx]

/-- **Which elements are left.** -/
theorem elements_iff (h : r.Built run.builds r₁)
    (hnames : ∀ name x, r₁.names.get? name = some x → Builds run.builds x ∨ ¬ r.IsOf run.cell x) :
    (∀ x, r₁.collectGarbage.2.IsOf run.cell x → Builds run.builds x) ↔
      run.BringsBack r r₁.collectGarbage.2 := by
  constructor
  · intro hall p hp hkeeps c hc hcell
    by_contra hnot
    have hmem := (h.left p c hnot).2 ⟨hc, hkeeps⟩
    have hlive := h.sound.live p c hmem
    have hreached := mem_reachable_of_child (contains_collectGarbage.1 hp).1 hmem hlive
    exact hnot (hall c (isOf_collectGarbage.2 ⟨hreached, (h.isOf_iff_of_not_builds hnot).2 hcell⟩))
  · intro hback x hx
    obtain ⟨hreached, hcell⟩ := isOf_collectGarbage.1 hx
    revert hcell
    refine reachable_induction (s := fun x => r₁.IsOf run.cell x → Builds run.builds x) ?_ ?_ x
      hreached
    · intro name x hbound _ hcell
      by_contra hnot
      rw [h.isOf_iff_of_not_builds hnot] at hcell
      exact (hnames name x hbound).elim hnot fun hother => hother hcell
    · -- a composite that is kept has it in its list: it was there before
      intro p c hp _ hc _ hcell
      by_contra hnot
      obtain ⟨hold, hkeeps⟩ := (h.left p c hnot).1 hc
      rw [h.isOf_iff_of_not_builds hnot] at hcell
      have hlive := contains_collectGarbage.2 ⟨hp, contains_of_mem_childrenOf hc⟩
      exact hnot (hback p hlive hkeeps c hold hcell)

/-- **Which children built composites have.** -/
theorem children_iff (h : r.Built run.builds r₁) (hdistinct : Distinct run.builds)
    (hnested : Nested run.builds) :
    (∀ p, r₁.collectGarbage.2.contains p = true → Builds run.builds p →
      ∀ c, c ∈ r₁.collectGarbage.2.childrenOf p ↔ BuildsUnder run.builds p c) ↔
      run.PutsBack r r₁.collectGarbage.2 := by
  refine forall₃_congr fun p hp _ => ?_
  rw [childrenOf_collectGarbage hp]
  simp only [h.children hdistinct hnested]
  constructor
  · intro hall hkeeps c hc
    by_cases hout : r.TakenOut run.builds p c
    · exact .inr hout
    · exact .inl ((hall c).1 (.inr ⟨hc, hkeeps, hout⟩))
  · intro hback c
    rw [or_iff_left_iff_imp]
    rintro ⟨hc, hkeeps, hstays⟩
    exact (hback hkeeps c hc).resolve_right hstays

/-- The two together. -/
theorem leavesNothingStale_iff (h : r.Built run.builds r₁) (hrun : run.IsFor r)
    (hnames : ∀ name x, r₁.names.get? name = some x → Builds run.builds x ∨ ¬ r.IsOf run.cell x)
    (hdistinct : Distinct run.builds) : run.LeavesNothingStale r₁.collectGarbage.2 ↔
      run.BringsBack r r₁.collectGarbage.2 ∧ run.PutsBack r r₁.collectGarbage.2 := by
  rw [← h.elements_iff hnames, ← h.children_iff hdistinct hrun.nested]
  constructor
  · rintro ⟨helements, hchildren⟩
    refine ⟨helements, fun p hp hbuilt => hchildren p ?_⟩
    exact isOf_collectGarbage.2 ⟨(contains_collectGarbage.1 hp).1, h.cells _ hrun.own p hbuilt⟩
  · rintro ⟨helements, hchildren⟩
    exact ⟨helements, fun p hp => hchildren p hp.contains (helements p hp)⟩

end Built

/-- **When a re-run leaves nothing stale.**  Every re-run can be carried out.  Whatever is built,
all elements of the cell that are left were built in the re-run exactly when it builds again every
element of the cell that a composite kept in its list.  If no element is built twice, nothing stale
is left exactly when, besides, every element in the list of a composite that is built again unchanged
is built under it again or starts anew. -/
theorem rerun_leaves_iff (hr : r.Reached) (hrun : run.IsFor r) :
    ∃ evicted r', run.carryOut r = .ok (evicted, r') ∧
      ((∀ x, r'.IsOf run.cell x → Builds run.builds x) ↔ run.BringsBack r r') ∧
      (Distinct run.builds →
        (run.LeavesNothingStale r' ↔ run.BringsBack r r' ∧ run.PutsBack r r')) := by
  obtain ⟨r₁, hdone, hbuilt, hnames⟩ := carryOut_eq hr.keyed hr.sound hrun
  exact ⟨_, _, hdone, hbuilt.elements_iff hnames, hbuilt.leavesNothingStale_iff hrun hnames⟩

/-! ## §5. An array with a slider. -/

/-- Composites are registered with their lists. -/
theorem mem_children_of_entry (h : c ∈ r.childrenOf p) :
    ∃ entry ∈ r.elements.entries, entry.1 = p ∧ c ∈ entry.2.children := by
  obtain ⟨e, he⟩ := Option.isSome_iff_exists.1 (contains_of_mem_childrenOf h)
  change r.get? p = some e at he
  rw [childrenOf_eq he] at h
  exact ⟨(p, e), (Table.get?_eq_some_iff r.elements).1 he, rfl, h⟩

/-- A slider in an array that a name is bound to. -/
def sliderInGrid : ElementRegistry := performAll (placedInArray ++ [.bind "grid" ⟨"a"⟩])

theorem sliderInGrid_reached : sliderInGrid.Reached :=
  reached_performAll fun done hdone => acyclic_of_rank belowArrays (by
    revert done
    simp only [← List.mem_inits]
    decide)

/-- The cell runs again and builds these elements. -/
def gridRerun (builds : List Build) : Rerun := ⟨⟨0⟩, ["grid"], builds, [("grid", ⟨"a"⟩)]⟩

theorem gridRerun_isFor (builds : List Build) (hown : ∀ b ∈ builds, b.spec.cell = ⟨0⟩)
    (hnested : Nested builds) (hgrid : Builds builds ⟨"a"⟩) :
    (gridRerun builds).IsFor sliderInGrid where
  own := hown
  nested := hnested
  bound := by simpa [gridRerun] using hgrid
  alone := fun name x hx hother => by
    have hall : ∀ entry ∈ sliderInGrid.names.entries, entry.1 ∈ ["grid"] := by decide
    exact absurd (hall (name, x) ((Table.get?_eq_some_iff _).1 hx)) hother

/-- The array and the slider are built again. -/
def gridBuilds : List Build :=
  [⟨plainSpec "a" .array, none, .identity⟩,
    ⟨plainSpec "x" (.leaf "slider"), some ⟨"a"⟩, .index 0⟩]

theorem gridRerun_leavesNothingStale : ∃ evicted r',
    (gridRerun gridBuilds).carryOut sliderInGrid = .ok (evicted, r') ∧
      (gridRerun gridBuilds).LeavesNothingStale r' := by
  have hnested : Nested gridBuilds := forall_steps_iff.2 (by decide)
  obtain ⟨evicted, r', hdone, -, hleaves⟩ := rerun_leaves_iff sliderInGrid_reached
    (gridRerun_isFor gridBuilds (by decide) hnested (by decide))
  have hall : ∀ entry ∈ sliderInGrid.elements.entries, ∀ c ∈ entry.2.children,
      BuildsUnder gridBuilds entry.1 c := by decide
  have hunder : ∀ {p c}, c ∈ sliderInGrid.childrenOf p → BuildsUnder gridBuilds p c := by
    intro p c hc
    obtain ⟨entry, hentry, rfl, hlisted⟩ := mem_children_of_entry hc
    exact hall entry hentry c hlisted
  refine ⟨evicted, r', hdone, (hleaves (by unfold Distinct; decide)).2 ⟨?_, ?_⟩⟩
  · exact fun p _ _ c hc _ => (hunder hc).of_child
  · exact fun p _ _ _ c hc => .inl (hunder hc)

/-- The array is built again, and nothing else is; what is there before the collecting. -/
def gridAlone : ElementRegistry := performAll (placedInArray ++ [.bind "grid" ⟨"a"⟩,
  .unbind "grid", .register (plainSpec "a" .array) none .identity, .bind "grid" ⟨"a"⟩])

/-- **The smallest re-run that leaves something.**  Only the array is built again, and keeps the
slider. -/
theorem rerun_keeps_dropped_child : ¬ ∀ (r : ElementRegistry) (run : Rerun),
    r.Reached → run.IsFor r → ∀ evicted r', run.carryOut r = .ok (evicted, r') →
      run.LeavesNothingStale r' := by
  intro hall
  have hfor := gridRerun_isFor (gridBuilds.take 1) (by decide)
    (forall_steps_iff.2 (by decide)) (by decide)
  have hdone : (gridRerun (gridBuilds.take 1)).carryOut sliderInGrid =
      .ok gridAlone.collectGarbage := by rfl
  have hgrid : ⟨"a"⟩ ∈ gridAlone.reachable :=
    mem_reachable_of_name (by rfl : gridAlone.names.get? "grid" = some ⟨"a"⟩) (by decide)
  have hslider := mem_reachable_of_child hgrid (by decide : ⟨"x"⟩ ∈ _) (by decide)
  have hstale := (hall _ _ sliderInGrid_reached hfor _ _ hdone).elements ⟨"x"⟩
    (isOf_collectGarbage.2 ⟨hslider, by decide⟩)
  revert hstale
  decide

end ElementRegistry

end Notebook
