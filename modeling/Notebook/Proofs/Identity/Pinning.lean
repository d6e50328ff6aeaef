/-
  Notebook.Proofs.Identity.Pinning — when a new version of a module gives a unit a new identity.

  With pinning on, a module counts with its version or origin where it is examined.  A unit whose
  modules change in one place therefore gets another digest when the module there is examined.  It
  also gets one when it is met inside itself, for there it counts by its structural identity, which
  covers its modules as written.  In all other cases the digest stays: the change is in the imports
  of a module, and a module of the same name has been opened before on the way to it.

  To see that nothing else can tell the two units apart, both searches are followed at once.  They
  differ in the identity of the root only, and as long as they write the same they have not met
  either identity.

  Main results:
    * `Environment.Walk.agree` — two walks that write the same meet neither of the two roots,
    * `Environment.identify_repinned_iff` — when a new version of a module changes the digest.
-/
import Notebook.Proofs.Identity.Modules

namespace Notebook

/-- The unit with another version of the module at a place, or another origin. -/
def WorkUnit.repinned (u : WorkUnit) (path : List Nat) (pin : String) : WorkUnit :=
  { u with modules := repinAt pin u.modules path }

variable [HashFunction]

/-- A new version of a module gives a unit a new structural identity. -/
theorem WorkUnit.identity_repinned_ne (hash : HashFunction.CollisionFree) {u : WorkUnit}
    {path : List Nat} {pin : String} {m : ModuleRef} (hu : u.IsRegular)
    (hu' : (u.repinned path pin).IsRegular) (hm : importAt? u.modules path = some m)
    (hpin : m.pin? ≠ some pin) : (u.repinned path pin).identity ≠ u.identity := by
  intro heq
  obtain ⟨-, -, htexts⟩ := WorkUnit.written_eq_of_identity hash hu' hu heq
  exact repinAt_ne hm hpin
    (List.map_injective_iff.2 (fun _ _ => ModuleRef.text_injective) htexts)

namespace Environment

variable {env : Environment} {pinned : Bool} {opened opened' opened₀ : List Digest}
  {u w : WorkUnit} {found found' found₁ found₂ : Findings} {names : List String}
  {entries : List (String × Entry)}

/-! ## §1. Two roots. -/

/-- A walk depends on which of the units that it reaches are open. -/
theorem Walk.congr (h : env.Walk pinned opened found names entries found')
    (hnames : ∀ name ∈ names, env.Reaches u name)
    (hagree : ∀ name w, env.Reaches u name → env.bindings.get? name = some (.unit w) →
      (w.identity ∈ opened ↔ w.identity ∈ opened')) :
    env.Walk pinned opened' found names entries found' := by
  induction h generalizing opened' with
  | nil => exact .nil
  | plain hplain _ ih => exact .plain hplain (ih (List.forall_mem_cons.1 hnames).2 hagree)
  | again hunit hopen _ ih =>
    obtain ⟨hreach, hreaches⟩ := List.forall_mem_cons.1 hnames
    exact .again hunit ((hagree _ _ hreach hunit).1 hopen) (ih hreaches hagree)
  | known hunit hopen hknown _ ih =>
    obtain ⟨hreach, hreaches⟩ := List.forall_mem_cons.1 hnames
    exact .known hunit ((hagree _ _ hreach hunit).not.1 hopen) hknown (ih hreaches hagree)
  | inside hunit hopen hnew hmodules _ _ ihinner ih =>
    obtain ⟨hreach, hreaches⟩ := List.forall_mem_cons.1 hnames
    refine .inside hunit ((hagree _ _ hreach hunit).not.1 hopen) hnew hmodules
      (ihinner (fun name hname => hreach.trans hunit (.own hname)) fun name w hreach' hunit' => ?_)
      (ih hreaches hagree)
    rw [List.mem_cons, List.mem_cons, hagree name w hreach' hunit']

/-- Two lists of open units that differ in the root only. -/
structure Roots (k k' : Digest) (opened opened' opened₀ : List Digest) : Prop where
  first : ∀ key, key ∈ opened ↔ key = k ∨ key ∈ opened₀
  second : ∀ key, key ∈ opened' ↔ key = k' ∨ key ∈ opened₀
  distinct : k ≠ k'

namespace Roots

variable {k k' key : Digest}

omit [HashFunction] in
/-- A unit that is open in both is no root. -/
theorem both (h : Roots k k' opened opened' opened₀) (hopen : key ∈ opened)
    (hopen' : key ∈ opened') : key ∈ opened₀ := by
  rcases (h.first key).1 hopen with rfl | hopen₀
  · exact ((h.second key).1 hopen').resolve_left h.distinct
  · exact hopen₀

omit [HashFunction] in
theorem first_only (h : Roots k k' opened opened' opened₀) (hopen : key ∈ opened)
    (hopen' : key ∉ opened') : key = k :=
  ((h.first key).1 hopen).resolve_right fun hopen₀ => hopen' ((h.second key).2 (.inr hopen₀))

omit [HashFunction] in
theorem second_only (h : Roots k k' opened opened' opened₀) (hopen : key ∉ opened)
    (hopen' : key ∈ opened') : key = k' :=
  ((h.second key).1 hopen').resolve_right fun hopen₀ => hopen ((h.first key).2 (.inr hopen₀))

omit [HashFunction] in
theorem none (h : Roots k k' opened opened' opened₀) (hopen : key ∉ opened) : key ∉ opened₀ :=
  fun hopen₀ => hopen ((h.first key).2 (.inr hopen₀))

omit [HashFunction] in
theorem ne_first (h : Roots k k' opened opened' opened₀) (hopen : key ∉ opened) : key ≠ k :=
  fun heq => hopen ((h.first key).2 (.inl heq))

omit [HashFunction] in
theorem ne_second (h : Roots k k' opened opened' opened₀) (hopen' : key ∉ opened') : key ≠ k' :=
  fun heq => hopen' ((h.second key).2 (.inl heq))

omit [HashFunction] in
theorem opens (h : Roots k k' opened opened' opened₀) (key : Digest) :
    Roots k k' (key :: opened) (key :: opened') (key :: opened₀) where
  first x := by rw [List.mem_cons, List.mem_cons, h.first]; tauto
  second x := by rw [List.mem_cons, List.mem_cons, h.second]; tauto
  distinct := h.distinct

end Roots

/-- Nothing has been found out about the unit of this identity. -/
def Unmet (key : Digest) (found : Findings) : Prop := ∀ p, (key, p) ∉ found

omit [HashFunction] in
theorem Unmet.lookup {key : Digest} (h : Unmet key found) : found.lookup key = none := by
  cases hlookup : found.lookup key with
  | none => rfl
  | some p => exact absurd (mem_of_lookup hlookup) (h p)

omit [HashFunction] in
theorem Unmet.cons {key key' : Digest} {p : Purity} (h : Unmet key found) (hne : key' ≠ key) :
    Unmet key ((key', p) :: found) := by
  intro q hmem
  rcases List.mem_cons.1 hmem with heq | hmem
  · exact hne (Prod.mk.inj heq).1.symm
  · exact h q hmem

/-- **Two walks that differ in the root only and write the same meet neither root.**  So either is
also a walk from no root at all. -/
theorem Walk.agree (hash : HashFunction.CollisionFree) {k k' : Digest}
    (h : env.Walk pinned opened found names entries found₁)
    (h' : env.Walk pinned opened' found names entries found₂)
    (hregular : ∀ name w, env.Reaches u name → env.bindings.get? name = some (.unit w) →
      w.IsRegular)
    (hnames : ∀ name ∈ names, env.Reaches u name)
    (hroots : Roots k k' opened opened' opened₀) (hfound : AreMessages found)
    (hk : Unmet k found) (hk' : Unmet k' found) :
    found₂ = found₁ ∧ Unmet k found₁ ∧ Unmet k' found₁ ∧
      env.Walk pinned opened₀ found names entries found₁ := by
  -- on the first walk; the second one can treat a name in the same way only
  induction h generalizing opened' opened₀ found₂ with
  | nil =>
    cases h' with
    | nil => exact ⟨rfl, hk, hk', .nil⟩
  | plain hplain _ ih =>
    cases h' with
    | plain hplain' hrest' =>
      obtain ⟨heq, hk, hk', hwalk⟩ :=
        ih hrest' (List.forall_mem_cons.1 hnames).2 hroots hfound hk hk'
      exact ⟨heq, hk, hk', .plain hplain hwalk⟩
  | @again _ _ _ _ _ _ w hunit hopen _ ih =>
    have hreaches := (List.forall_mem_cons.1 hnames).2
    generalize hd : recursionDigest w.identity = d at h'
    cases h' with
    | again hunit' hopen' hrest' =>
      obtain rfl := Resolved.unit.inj (Option.some.inj (hunit.symm.trans hunit'))
      have hopen₀ : w.identity ∈ opened₀ := hroots.both hopen hopen'
      obtain ⟨heq, hk, hk', hwalk⟩ := ih hrest' hreaches hroots hfound hk hk'
      exact ⟨heq, hk, hk', .again hunit hopen₀ hwalk⟩
    | known hunit' hopen' hknown' hrest' =>
      obtain rfl := Resolved.unit.inj (Option.some.inj (hunit.symm.trans hunit'))
      -- the unit is the first root, and nothing has been found out about it
      have hroot : w.identity = k := hroots.first_only hopen hopen'
      rw [hroot, hk.lookup] at hknown'
      cases hknown'
    | inside hunit' hopen' hnew' hmodules' hinner' hrest' =>
      exact absurd hd.symm (Body.digest_ne_recursionDigest hash _ _)
  | @known _ _ _ _ _ _ w d hunit hopen hknown _ ih =>
    have hreaches := (List.forall_mem_cons.1 hnames).2
    cases h' with
    | again hunit' hopen' hrest' =>
      obtain rfl := Resolved.unit.inj (Option.some.inj (hunit.symm.trans hunit'))
      have hroot : w.identity = k' := hroots.second_only hopen hopen'
      rw [hroot, hk'.lookup] at hknown
      cases hknown
    | known hunit' hopen' hknown' hrest' =>
      obtain ⟨heq, hk, hk', hwalk⟩ := ih hrest' hreaches hroots hfound hk hk'
      exact ⟨heq, hk, hk', .known hunit (hroots.none hopen) hknown hwalk⟩
    | inside hunit' hopen' hnew' hmodules' hinner' hrest' =>
      obtain rfl := Resolved.unit.inj (Option.some.inj (hunit.symm.trans hunit'))
      rw [hknown] at hnew'
      cases hnew'
  | @inside _ _ _ _ _ _ inner _ w modules seen hunit hopen hnew hmodules hinner _ ihinner ih =>
    obtain ⟨hreach, hreaches⟩ := List.forall_mem_cons.1 hnames
    have hw : w.IsRegular := hregular _ w hreach hunit
    generalize hd : Body.digest ⟨w.normalSource, modules, inner⟩ = d at h'
    cases h' with
    | again hunit' hopen' hrest' =>
      exact absurd hd (Body.digest_ne_recursionDigest hash _ _)
    | known hunit' hopen' hknown' hrest' =>
      obtain rfl := Resolved.unit.inj (Option.some.inj (hunit.symm.trans hunit'))
      rw [hnew] at hknown'
      cases hknown'
    | @inside _ _ found₃ _ _ _ inner' _ _ _ _ hunit' hopen' hnew' hmodules' hinner' hrest' =>
      obtain rfl := Resolved.unit.inj (Option.some.inj (hunit.symm.trans hunit'))
      -- both have opened the unit, and as they write the same digest they write the same inside
      have hbody := Body.digest_injective hash (hinner.body_regular hfound hw hmodules)
        (hinner'.body_regular hfound hw hmodules') hd
      obtain ⟨-, rfl, rfl⟩ := Body.mk.inj hbody
      have hne : w.identity ≠ k := hroots.ne_first hopen
      have hne' : w.identity ≠ k' := hroots.ne_second hopen'
      obtain ⟨rfl, hk₁, hk₁', hwalk₁⟩ := ihinner hinner'
        (fun name hname => hreach.trans hunit (.own hname)) (hroots.opens _) hfound hk hk'
      obtain ⟨heq, hk₂, hk₂', hwalk⟩ := ih hrest' hreaches hroots
        ((hinner.regular hfound).1.cons ⟨_, rfl⟩) (hk₁.cons hne) (hk₁'.cons hne')
      exact ⟨heq, hk₂, hk₂', .inside hunit (hroots.none hopen) hnew hmodules hwalk₁ hwalk⟩

/-! ## §2. A new version of one module. -/

/-- A unit that is met has one of two identities. -/
def MeetsAgain (env : Environment) (u : WorkUnit) (k k' : Digest) : Prop :=
  ∃ name w, env.Reaches u name ∧ env.bindings.get? name = some (.unit w) ∧
    (w.identity = k ∨ w.identity = k')

/-- Walks that begin alike write the same. -/
theorem Walk.unique {root : Digest} {depth : Nat} {entries' : List (String × Entry)}
    (h : env.Walk pinned opened found names entries found₁)
    (h' : env.Walk pinned opened found names entries' found₂)
    (hroom : env.HasRoom root depth opened) (hfound : AreMessages found) : entries = entries' := by
  have hsame := (h.contributions hroom "").symm.trans (h'.contributions hroom "")
  obtain ⟨hfields, -⟩ := Prod.mk.inj (Except.ok.inj hsame)
  exact entryFields_injective (h.regular hfound).2 (h'.regular hfound).2
    (Contribution.fields.inj hfields)

/-- What a unit writes beside its names does not tell one root from another, exactly when neither
root is met again. -/
theorem Walk.entries_eq_iff (hash : HashFunction.CollisionFree) {k k' : Digest}
    {entries' : List (String × Entry)} (hregular : ∀ v, env.Meets u v → v.IsRegular)
    (hne : k ≠ k') (h : env.Walk pinned [k] [] u.freeVars.toList entries found)
    (h' : env.Walk pinned [k'] [] u.freeVars.toList entries' found') :
    entries = entries' ↔ ¬ env.MeetsAgain u k k' := by
  have hnone : AreMessages [] := fun key d hmem => absurd hmem List.not_mem_nil
  have hown : ∀ name ∈ u.freeVars.toList, env.Reaches u name := fun name hname => .own hname
  constructor
  · rintro rfl ⟨name, w, hreach, hunit, hidentity⟩
    have hroots : Roots k k' [k] [k'] [] := ⟨by simp, by simp, hne⟩
    obtain ⟨-, hk, hk', hwalk⟩ := h.agree hash h'
      (fun name w hreach hunit => hregular w (.named hreach hunit)) hown hroots hnone
      (fun p hmem => absurd hmem List.not_mem_nil) (fun p hmem => absurd hmem List.not_mem_nil)
    -- everything that is reached has been found out about, and the roots have not
    obtain ⟨p, hp⟩ := ((hwalk.passed (tellsApart hash hregular) hreach).settled w
      hunit).resolve_left List.not_mem_nil
    rcases hidentity with heq | heq
    · exact hk p (heq ▸ hp)
    · exact hk' p (heq ▸ hp)
  · intro hagain
    have hwalk : env.Walk pinned [k'] [] u.freeVars.toList entries found := by
      refine h.congr hown fun name w hreach hunit => ?_
      have hk : w.identity ≠ k := fun heq => hagain ⟨name, w, hreach, hunit, .inl heq⟩
      have hk' : w.identity ≠ k' := fun heq => hagain ⟨name, w, hreach, hunit, .inr heq⟩
      simp [hk, hk']
    obtain ⟨depth, hdepth⟩ := Nat.exists_eq_succ_of_ne_zero (env.hasRoom_maxOpen k').depth_ne_zero
    have hroom := hdepth ▸ env.hasRoom_maxOpen k'
    exact hwalk.unique h' (hroom.opens (List.mem_cons_self ..) List.not_mem_nil) hnone

/-- **When a new version of one module changes the digest of a unit.**  With pinning on, the digest
changes exactly when the module is examined, or when the unit is met again while it is hashed, as it
was or as it is. -/
theorem identify_repinned_iff (hash : HashFunction.CollisionFree) {path : List Nat} {pin : String}
    {m : ModuleRef} {d d' : Digest} (hregular : ∀ v, env.Meets u v → v.IsRegular)
    (hregular' : (u.repinned path pin).IsRegular) (hm : importAt? u.modules path = some m)
    (hpin : m.pin? ≠ some pin) (h : identify env true u = .ok (.content d))
    (h' : identify env true (u.repinned path pin) = .ok (.content d')) :
    d ≠ d' ↔ Examined u.modules [] path ∨
      env.MeetsAgain u u.identity (u.repinned path pin).identity := by
  have hu := hregular u .root
  obtain ⟨modules, seen, entries, found, hmodules, hwalk, rfl⟩ :=
    purity_eq_pure_iff.1 (identify_eq_content_iff.1 h)
  obtain ⟨modules', seen', entries', found', hmodules', hwalk', rfl⟩ :=
    purity_eq_pure_iff.1 (identify_eq_content_iff.1 h')
  have hnone : AreMessages [] := fun key d hmem => absurd hmem List.not_mem_nil
  have hbody := hwalk.body_regular hnone hu hmodules
  have hbody' := hwalk'.body_regular hnone hregular' hmodules'
  -- the digests are equal when the digests of the modules are, and what is beside the names
  have hdigest : Body.digest ⟨u.normalSource, modules, entries⟩ =
      Body.digest ⟨u.normalSource, modules', entries'⟩ ↔
        modules = modules' ∧ entries = entries' := by
    constructor
    · intro heq
      exact (Body.mk.inj (Body.digest_injective hash hbody hbody' heq)).2
    · intro heq
      rw [heq.1, heq.2]
  have hmodulesIff : modules = modules' ↔ ¬ Examined u.modules [] path :=
    moduleDigests_repinAt hash (fun m hm => (hu.modules m hm).2)
      (fun m hm => (hregular'.modules m hm).2) hm hpin hmodules hmodules'
  have hentriesIff : entries = entries' ↔
      ¬ env.MeetsAgain u u.identity (u.repinned path pin).identity :=
    hwalk.entries_eq_iff hash hregular
      (u.identity_repinned_ne hash hu hregular' hm hpin).symm hwalk'
  show ¬ Body.digest ⟨u.normalSource, modules, entries⟩ =
    Body.digest ⟨u.normalSource, modules', entries'⟩ ↔ _
  rw [hdigest, hmodulesIff, hentriesIff, not_and_or, not_not, not_not]

/-- A unit that closes over no names is known by its modules. -/
theorem identify_nameless (hnames : u.freeVars.toList = []) {modules : List Digest}
    {seen : List String} (h : moduleDigests pinned u.modules [] = .ok (modules, seen)) :
    identify env pinned u = .ok (.content (Body.digest ⟨u.normalSource, modules, []⟩)) := by
  refine identify_eq_content_iff.2 (purity_eq_pure_iff.2 ⟨modules, seen, [], [], h, ?_, rfl⟩)
  rw [hnames]
  exact .nil

/-- A unit that uses two releases of `lib`, each with its own `core`. -/
def twoReleases : WorkUnit where
  name := "report"
  source := "new.report(old.load())"
  modules :=
    [{ name := "lib", localName := some "old", version := some "1",
       imports := [{ name := "core", version := some "1" }] },
     { name := "lib", localName := some "new", version := some "2",
       imports := [{ name := "core", version := some "2" }] }]

/-- It is known by content, whatever versions its imports have. -/
theorem identify_twoReleases {path : List Nat} (hpath : path = [0, 0] ∨ path = [1, 0])
    (pin : String) : ∃ d, identify {} true (twoReleases.repinned path pin) = .ok (.content d) := by
  rcases hpath with rfl | rfl
  · exact ⟨_, identify_nameless rfl rfl⟩
  · exact ⟨_, identify_nameless rfl rfl⟩

omit [HashFunction] in
/-- A new version of the first `core` changes the digest, and one of the second does not. -/
theorem twoReleases_repinned :
    let _ := HashFunction.spelled
    HashFunction.CollisionFree ∧ ∃ d d₁ d₂,
      identify {} true twoReleases = .ok (.content d) ∧
      identify {} true (twoReleases.repinned [0, 0] "3") = .ok (.content d₁) ∧
      identify {} true (twoReleases.repinned [1, 0] "3") = .ok (.content d₂) ∧ d ≠ d₁ ∧ d = d₂ := by
  intro _
  have hash := HashFunction.spelled_collisionFree
  -- no name is reached, so no unit but this one is met
  have hempty : twoReleases.freeVars.toList = [] := rfl
  have hnoNames : ∀ name, ¬ Reaches {} twoReleases name := by
    intro name hreach
    cases hreach with
    | own hown => exact List.not_mem_nil (hempty ▸ hown)
    | through hvia hunit hreach => exact List.not_mem_nil (hempty ▸ hvia)
  have hregular : ∀ v, Meets {} twoReleases v → v.IsRegular := by
    intro v hv
    cases hv with
    | root => exact ⟨by decide +kernel, by decide +kernel, by decide +kernel⟩
    | named hreach hunit => exact absurd hreach (hnoNames _)
  have hagain : ∀ k k', ¬ MeetsAgain {} twoReleases k k' := by
    intro k k' hmeets
    obtain ⟨name, w, hreach, -⟩ := hmeets
    exact hnoNames name hreach
  have hidentify : identify {} true twoReleases = .ok (.content _) := identify_nameless rfl rfl
  obtain ⟨d₁, hfirst⟩ := identify_twoReleases (.inl rfl) "3"
  obtain ⟨d₂, hsecond⟩ := identify_twoReleases (.inr rfl) "3"
  refine ⟨hash, _, d₁, d₂, hidentify, hfirst, hsecond, ?_, ?_⟩
  · refine (identify_repinned_iff hash hregular
      ⟨by decide +kernel, by decide +kernel, by decide +kernel⟩ rfl (by decide) hidentify
      hfirst).2 (.inl ?_)
    exact ⟨_, rfl, by decide +kernel, Nat.zero_lt_one⟩
  · by_contra hne
    have hchanged := (identify_repinned_iff hash hregular
      ⟨by decide +kernel, by decide +kernel, by decide +kernel⟩ rfl (by decide) hidentify
      hsecond).1 hne
    rcases hchanged with hexamined | hmeets
    · obtain ⟨m, hm, hnot, -⟩ := hexamined
      obtain rfl := Option.some.inj hm
      exact hnot (by decide +kernel)
    · exact hagain _ _ hmeets

omit [HashFunction] in
/-- The second `core` can be of another version without the digest telling. -/
theorem twoReleases_sameDigest :
    let _ := HashFunction.spelled
    HashFunction.CollisionFree ∧ ∃ m d, importAt? twoReleases.modules [1, 0] = some m ∧
      m.pin? = some "2" ∧ identify {} true twoReleases = .ok (.content d) ∧
      identify {} true (twoReleases.repinned [1, 0] "3") = .ok (.content d) := by
  intro _
  exact ⟨HashFunction.spelled_collisionFree, _, _, rfl, rfl, identify_nameless rfl rfl,
    identify_nameless rfl rfl⟩

end Environment

end Notebook
