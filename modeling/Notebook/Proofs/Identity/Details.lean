/-
  Notebook.Proofs.Identity.Details — what the details of modules do to an identity without pinning.

  Without pinning a module counts by its name.  Its alias, its version, its origin and its imports
  still go into the structural identities of units as they are written, and a unit that is met while
  it is open counts by its structural identity.  So a content digest recalls the structural
  identities of units that recur (`Digest.Recalls`), and through these the details of their modules.

  Two environments in which a unit reaches alike names (`Environment.Varied`) differ in such details
  only.  The digest is the same in both exactly when the units that it recalls have the identities
  that it recalls, as long as units that recur are told apart in the one as in the other.  The
  details of the modules of all other units change nothing.

  To see that, the trails in both environments are followed at once: they treat every unit alike.

  Main results:
    * `Environment.Trail.recalled` — a digest recalls units that recur, by their identities,
    * `Environment.Trail.vary` — two trails write the same as long as recalled identities are kept,
    * `Environment.identify_varied` — when details of modules change the digest.
-/
import Notebook.Proofs.Identity.Recursion
import Notebook.Proofs.Identity.Impurity

namespace Notebook

/-- Whoever is like a unit is a unit of the same outline. -/
theorem Resolved.Alike.unit_left {w : WorkUnit} {r : Option Resolved}
    (h : Alike (some (.unit w)) r) : ∃ w', r = some (.unit w') ∧ w.outline = w'.outline := by
  cases h with
  | unit houtline => exact ⟨_, rfl, houtline⟩

theorem Resolved.Alike.unit_right {w' : WorkUnit} {r : Option Resolved}
    (h : Alike r (some (.unit w'))) : ∃ w, r = some (.unit w) ∧ w.outline = w'.outline := by
  cases h with
  | unit houtline => exact ⟨_, rfl, houtline⟩

variable [HashFunction]

/-! ## §1. Identities that a digest recalls. -/

/-- The name stands, somewhere inside this digest, for a unit that counts by this identity. -/
inductive Digest.Recalls : Digest → String → Digest → Prop
  | here {d k : Digest} {name : String} (b : Body) (hb : b.IsRegular) (hd : d = b.digest)
      (he : (name, .unit (recursionDigest k)) ∈ b.entries) : Recalls d name k
  | inside {d inner k : Digest} {via name : String} (b : Body) (hb : b.IsRegular)
      (hd : d = b.digest) (he : (via, .unit inner) ∈ b.entries) (h : Recalls inner name k) :
      Recalls d name k

/-- The same of what is written beside names. -/
def Recalled (entries : List (String × Entry)) (name : String) (k : Digest) : Prop :=
  (name, .unit (recursionDigest k)) ∈ entries ∨
    ∃ via inner, (via, .unit inner) ∈ entries ∧ inner.Recalls name k

theorem Body.recalls_iff (hash : HashFunction.CollisionFree) {b : Body} (hb : b.IsRegular)
    {name : String} {k : Digest} : b.digest.Recalls name k ↔ Recalled b.entries name k := by
  constructor
  · intro h
    cases h with
    | here b' hb' hd he =>
      obtain rfl := Body.digest_injective hash hb hb' hd
      exact .inl he
    | inside b' hb' hd he hinner =>
      obtain rfl := Body.digest_injective hash hb hb' hd
      exact .inr ⟨_, _, he, hinner⟩
  · intro h
    rcases h with he | ⟨via, inner, he, hinner⟩
    · exact .here b hb rfl he
    · exact .inside b hb rfl he hinner

theorem not_recalls_recursionDigest (hash : HashFunction.CollisionFree) (key : Digest)
    (name : String) (k : Digest) : ¬ (recursionDigest key).Recalls name k := by
  intro h
  cases h with
  | here b hb hd he => exact b.digest_ne_recursionDigest hash key hd.symm
  | inside b hb hd he hinner => exact b.digest_ne_recursionDigest hash key hd.symm

theorem recalled_nil (name : String) (k : Digest) : ¬ Recalled [] name k := by
  simp [Recalled]

theorem recalled_cons_plain {via name : String} {f : Field} {k : Digest}
    {entries : List (String × Entry)} :
    Recalled ((via, .plain f) :: entries) name k ↔ Recalled entries name k := by
  simp [Recalled]

theorem recalled_cons_unit {via name : String} {d k : Digest} {entries : List (String × Entry)} :
    Recalled ((via, .unit d) :: entries) name k ↔
      (name = via ∧ recursionDigest k = d) ∨ d.Recalls name k ∨ Recalled entries name k := by
  simp only [Recalled, List.mem_cons, Prod.mk.injEq, Entry.unit.injEq]
  constructor
  · rintro ((h | h) | ⟨via', inner, ⟨rfl, rfl⟩ | h, hinner⟩)
    · exact .inl h
    · exact .inr (.inr (.inl h))
    · exact .inr (.inl hinner)
    · exact .inr (.inr (.inr ⟨via', inner, h, hinner⟩))
  · rintro (h | h | h | ⟨via', inner, h, hinner⟩)
    · exact .inl (.inl h)
    · exact .inr ⟨via, d, .inl ⟨rfl, rfl⟩, h⟩
    · exact .inl (.inr h)
    · exact .inr ⟨via', inner, .inr h, hinner⟩

namespace Environment

variable {env env' : Environment} {opened opened' : List Digest} {u u' v v' w w' : WorkUnit}
  {found found' found₁ found₂ : Findings} {name : String} {names : List String}
  {entries entries' : List (String × Entry)}

/-- The units that a digest recalls have the identities that it recalls. -/
def Knows (env : Environment) (d : Digest) : Prop :=
  ∀ name k, d.Recalls name k → ∃ w, env.bindings.get? name = some (.unit w) ∧ w.identity = k

/-- The name is reached, and stands for a unit that recurs and has this identity. -/
def RecursAs (env : Environment) (u : WorkUnit) (name : String) (k : Digest) : Prop :=
  ∃ w, env.Reaches u name ∧ env.bindings.get? name = some (.unit w) ∧ env.Recurs w ∧ w.identity = k

/-- What has been noted recalls units that recur. -/
def RecallsRecurring (env : Environment) (u : WorkUnit) (found : Findings) : Prop :=
  ∀ key d, (key, .pure d) ∈ found → (∀ k, recursionDigest k ≠ d) ∧
    ∀ name k, d.Recalls name k → env.RecursAs u name k

/-- **A digest recalls units that recur, by their identities.** -/
theorem Trail.recalled (hash : HashFunction.CollisionFree)
    (h : env.Trail opened found names entries found')
    (hregular : ∀ v, env.Meets u v → v.IsRegular) (hnames : ∀ name ∈ names, env.Reaches u name)
    (hfound : AreMessages found) (hrecalls : env.RecallsRecurring u found) :
    env.RecallsRecurring u found' ∧ ∀ name k, Recalled entries name k → env.RecursAs u name k := by
  induction h with
  | nil => exact ⟨hrecalls, fun name k h => absurd h (recalled_nil name k)⟩
  | plain hplain _ ih =>
    obtain ⟨hrecalls', hentries⟩ := ih (List.forall_mem_cons.1 hnames).2 hfound hrecalls
    exact ⟨hrecalls', fun name k h => hentries name k (recalled_cons_plain.1 h)⟩
  | again hunit hrecurs hopen _ ih =>
    obtain ⟨hreach, hreaches⟩ := List.forall_mem_cons.1 hnames
    obtain ⟨hrecalls', hentries⟩ := ih hreaches hfound hrecalls
    refine ⟨hrecalls', fun name k h => ?_⟩
    rcases recalled_cons_unit.1 h with ⟨rfl, hk⟩ | h | h
    · exact ⟨_, hreach, hunit, hrecurs, (recursionDigest_injective hash hk).symm⟩
    · exact absurd h (not_recalls_recursionDigest hash _ name k)
    · exact hentries name k h
  | known hunit hrecurs hopen hknown _ ih =>
    obtain ⟨hreach, hreaches⟩ := List.forall_mem_cons.1 hnames
    obtain ⟨hrecalls', hentries⟩ := ih hreaches hfound hrecalls
    obtain ⟨hne, hinner⟩ := hrecalls _ _ (mem_of_lookup hknown)
    refine ⟨hrecalls', fun name k h => ?_⟩
    rcases recalled_cons_unit.1 h with ⟨-, hk⟩ | h | h
    · exact absurd hk (hne k)
    · exact hinner name k h
    · exact hentries name k h
  | @inside _ _ _ _ _ _ inner _ w hunit hrecurs hopen hnew hinner _ ihinner ih =>
    obtain ⟨hreach, hreaches⟩ := List.forall_mem_cons.1 hnames
    have hw : env.Meets u w := .named hreach hunit
    have hbody := hinner.body_regular hfound (hregular w hw)
    obtain ⟨hrecalls₁, hentries₁⟩ :=
      ihinner (fun name hname => hw.reaches (.own hname)) hfound hrecalls
    -- the digest of the unit recalls what is recalled inside
    have hdigest : (∀ k, recursionDigest k ≠ (w.outline.body inner).digest) ∧
        ∀ name k, (w.outline.body inner).digest.Recalls name k → env.RecursAs u name k :=
      ⟨fun k heq => Body.digest_ne_recursionDigest hash _ k heq.symm,
        fun name k h => hentries₁ name k ((Body.recalls_iff hash hbody).1 h)⟩
    obtain ⟨hrecalls', hentries⟩ := ih hreaches ((hinner.regular hfound).1.cons ⟨_, rfl⟩) (by
      intro key d hmem
      rcases List.mem_cons.1 hmem with heq | hmem
      · obtain rfl := Purity.pure.inj (Prod.mk.inj heq).2
        exact hdigest
      · exact hrecalls₁ key d hmem)
    refine ⟨hrecalls', fun name k h => ?_⟩
    rcases recalled_cons_unit.1 h with ⟨-, hk⟩ | h | h
    · exact absurd hk (hdigest.1 k)
    · exact hdigest.2 name k h
    · exact hentries name k h
  | @anew _ _ _ _ _ _ inner _ w hunit hrecurs hinner _ ihinner ih =>
    obtain ⟨hreach, hreaches⟩ := List.forall_mem_cons.1 hnames
    have hw : env.Meets u w := .named hreach hunit
    have hbody := hinner.body_regular hfound (hregular w hw)
    obtain ⟨hrecalls₁, hentries₁⟩ :=
      ihinner (fun name hname => hw.reaches (.own hname)) hfound hrecalls
    obtain ⟨hrecalls', hentries⟩ := ih hreaches (hinner.regular hfound).1 hrecalls₁
    refine ⟨hrecalls', fun name k h => ?_⟩
    rcases recalled_cons_unit.1 h with ⟨-, hk⟩ | h | h
    · exact absurd hk.symm (Body.digest_ne_recursionDigest hash _ k)
    · exact hentries₁ name k ((Body.recalls_iff hash hbody).1 h)
    · exact hentries name k h

/-! ## §2. Environments that differ in details of modules. -/

/-- A unit and what it reaches, in two environments that differ in aliases, versions, origins and
imports of modules only. -/
structure Varied (env env' : Environment) (u u' : WorkUnit) : Prop where
  outline : u.outline = u'.outline
  alike : ∀ name, env.Reaches u name →
    Resolved.Alike (env.bindings.get? name) (env'.bindings.get? name)

/-- A unit that is met in the one environment, and the one in its place in the other. -/
inductive Counterparts (env env' : Environment) (u u' : WorkUnit) : WorkUnit → WorkUnit → Prop
  | root : Counterparts env env' u u' u u'
  | named {name : String} {w w' : WorkUnit} (hreach : env.Reaches u name)
      (hunit : env.bindings.get? name = some (.unit w))
      (hunit' : env'.bindings.get? name = some (.unit w')) : Counterparts env env' u u' w w'

/-- Units that recur are told apart in the one environment as in the other. -/
def KeepsApart (env env' : Environment) (u u' : WorkUnit) : Prop :=
  ∀ v v' w w', Counterparts env env' u u' v v' → Counterparts env env' u u' w w' →
    env.Recurs v → env.Recurs w → (v.identity = w.identity ↔ v'.identity = w'.identity)

namespace Varied

omit [HashFunction] in
theorem through (h : Varied env env' u u') (hreach : env.Reaches u name)
    (hunit : env.bindings.get? name = some (.unit w)) :
    ∃ w', env'.bindings.get? name = some (.unit w') ∧ Varied env env' w w' := by
  obtain ⟨w', hunit', houtline⟩ := (hunit ▸ h.alike name hreach).unit_left
  exact ⟨w', hunit', houtline, fun name' hname' => h.alike name' (hreach.trans hunit hname')⟩

omit [HashFunction] in
/-- The unit reaches the same names in both environments. -/
theorem reaches_iff (h : Varied env env' u u') : env.Reaches u name ↔ env'.Reaches u' name := by
  have hnames : ∀ {v v' : WorkUnit}, Varied env env' v v' →
      v.freeVars.toList = v'.freeVars.toList := fun hv => congrArg Outline.names hv.outline
  constructor
  · intro hreach
    induction hreach generalizing u' with
    | own hown => exact .own (hnames h ▸ hown)
    | through hvia hunit _ ih =>
      obtain ⟨w', hunit', hw⟩ := h.through (.own hvia) hunit
      exact .through (hnames h ▸ hvia) hunit' (ih hw)
  · intro hreach
    induction hreach generalizing u with
    | own hown => exact .own (hnames h ▸ hown)
    | @through _ _ via _ hvia hunit' _ ih =>
      have hvia' : env.Reaches u via := .own (hnames h ▸ hvia)
      obtain ⟨w, hunit, -⟩ := (hunit' ▸ h.alike via hvia').unit_right
      obtain ⟨w', hunit'', hw⟩ := h.through hvia' hunit
      obtain rfl := Resolved.unit.inj (Option.some.inj (hunit'.symm.trans hunit''))
      exact hvia'.trans hunit (ih hw)

omit [HashFunction] in
/-- Nothing impure is alike to anything. -/
theorem untainted (h : Varied env env' u u') : env'.IsUntainted u' := by
  intro name reason hreach hget
  have halike := h.alike name (h.reaches_iff.2 hreach)
  rw [hget] at halike
  generalize env.bindings.get? name = r at halike
  cases halike

/-- What is written beside a name that stands for no unit is the same. -/
theorem plain?_eq (h : Varied env env' u u') (hreach : env.Reaches u name) :
    env.plain? false name = env'.plain? false name := by
  have halike := h.alike name hreach
  unfold plain?
  generalize env.bindings.get? name = r, env'.bindings.get? name = r' at halike
  cases halike with
  | unbound => rfl
  | value v => rfl
  | module hname => simp only [moduleDigest_unpinned, hname]
  | unit houtline => rfl

end Varied

namespace Counterparts

omit [HashFunction] in
theorem meets (h : Counterparts env env' u u' v v') : env.Meets u v := by
  cases h with
  | root => exact .root
  | named hreach hunit hunit' => exact .named hreach hunit

omit [HashFunction] in
theorem meets' (hvaried : Varied env env' u u') (h : Counterparts env env' u u' v v') :
    env'.Meets u' v' := by
  cases h with
  | root => exact .root
  | named hreach hunit hunit' => exact .named (hvaried.reaches_iff.1 hreach) hunit'

omit [HashFunction] in
theorem varied (hvaried : Varied env env' u u') (h : Counterparts env env' u u' v v') :
    Varied env env' v v' := by
  cases h with
  | root => exact hvaried
  | named hreach hunit hunit' =>
    obtain ⟨w', hw', hvaried'⟩ := hvaried.through hreach hunit
    obtain rfl := Resolved.unit.inj (Option.some.inj (hunit'.symm.trans hw'))
    exact hvaried'

omit [HashFunction] in
/-- One of them recurs if the other does. -/
theorem recurs_iff (hvaried : Varied env env' u u') (h : Counterparts env env' u u' v v') :
    env.Recurs v ↔ env'.Recurs v' := by
  have hv := h.varied hvaried
  constructor
  · intro hrecurs
    obtain ⟨name, x, hreach, hunit, houtline⟩ := hrecurs
    obtain ⟨x', hunit', hx⟩ := hv.through hreach hunit
    exact ⟨name, x', hv.reaches_iff.1 hreach, hunit',
      hx.outline.symm.trans (houtline.trans hv.outline)⟩
  · intro hrecurs
    obtain ⟨name, x', hreach', hunit', houtline⟩ := hrecurs
    have hreach := hv.reaches_iff.2 hreach'
    obtain ⟨x, hunit, hx⟩ := (hunit' ▸ hv.alike name hreach).unit_right
    exact ⟨name, x, hreach, hunit, hx.trans (houtline.trans hv.outline.symm)⟩

/-- They have the identities of two others together, or neither has, where one of the units
recurs. -/
theorem identity_iff (hvaried : Varied env env' u u') (happart : env.TellsApart u)
    (happart' : env'.TellsApart u') (hkeeps : KeepsApart env env' u u')
    (hv : Counterparts env env' u u' v v') (hw : Counterparts env env' u u' w w')
    (hrecurs : env.Recurs v) : v.identity = w.identity ↔ v'.identity = w'.identity := by
  by_cases hrecurs' : env.Recurs w
  · exact hkeeps v v' w w' hv hw hrecurs hrecurs'
  · have hne : v.identity ≠ w.identity :=
      happart.ne_of_recurs hv.meets hw.meets hrecurs hrecurs'
    have hne' : v'.identity ≠ w'.identity :=
      happart'.ne_of_recurs (hv.meets' hvaried) (hw.meets' hvaried)
        ((hv.recurs_iff hvaried).1 hrecurs) fun h => hrecurs' ((hw.recurs_iff hvaried).2 h)
    simp only [hne, hne']

end Counterparts

/-! ## §3. Two trails. -/

/-- A trail writes the field of a name that stands for no unit. -/
theorem Trail.plain_cases (h : env.Trail opened found (name :: names) entries found') {f : Field}
    (hplain : env.plain? false name = some f) :
    ∃ rest, entries = (name, .plain f) :: rest ∧ env.Trail opened found names rest found' := by
  cases h with
  | plain hplain' hrest =>
    obtain rfl := Option.some.inj (hplain.symm.trans hplain')
    exact ⟨_, rfl, hrest⟩
  | again hunit _ _ _ => simp [plain?, hunit] at hplain
  | known hunit _ _ _ _ => simp [plain?, hunit] at hplain
  | inside hunit _ _ _ _ _ => simp [plain?, hunit] at hplain
  | anew hunit _ _ _ => simp [plain?, hunit] at hplain

/-- How a trail treats a unit: the one way for each state that the unit can be in. -/
theorem Trail.unit_cases (h : env.Trail opened found (name :: names) entries found')
    (hunit : env.bindings.get? name = some (.unit w)) : ∃ d rest found₁,
    entries = (name, .unit d) :: rest ∧ env.Trail opened found₁ names rest found' ∧
    (env.Recurs w → w.identity ∈ opened → d = recursionDigest w.identity ∧ found₁ = found) ∧
    (env.Recurs w → w.identity ∉ opened → ∀ e, found.lookup w.identity = some (.pure e) →
      d = e ∧ found₁ = found) ∧
    (env.Recurs w → w.identity ∉ opened → found.lookup w.identity = none → ∃ inner found₂,
      env.Trail (w.identity :: opened) found w.freeVars.toList inner found₂ ∧
      d = (w.outline.body inner).digest ∧ found₁ = (w.identity, .pure d) :: found₂) ∧
    (¬ env.Recurs w → ∃ inner,
      env.Trail (w.identity :: opened) found w.freeVars.toList inner found₁ ∧
      d = (w.outline.body inner).digest) := by
  cases h with
  | plain hplain _ => simp [plain?, hunit] at hplain
  | again hunit' hrecurs hopen hrest =>
    obtain rfl := Resolved.unit.inj (Option.some.inj (hunit.symm.trans hunit'))
    exact ⟨_, _, found, rfl, hrest, fun _ _ => ⟨rfl, rfl⟩, fun _ hout => absurd hopen hout,
      fun _ hout => absurd hopen hout, fun hnot => absurd hrecurs hnot⟩
  | known hunit' hrecurs hopen hknown hrest =>
    obtain rfl := Resolved.unit.inj (Option.some.inj (hunit.symm.trans hunit'))
    refine ⟨_, _, found, rfl, hrest, fun _ hin => absurd hin hopen, fun _ _ e he => ?_,
      fun _ _ hnew => ?_, fun hnot => absurd hrecurs hnot⟩
    · exact ⟨Purity.pure.inj (Option.some.inj (hknown.symm.trans he)), rfl⟩
    · rw [hknown] at hnew
      cases hnew
  | inside hunit' hrecurs hopen hnew hinner hrest =>
    obtain rfl := Resolved.unit.inj (Option.some.inj (hunit.symm.trans hunit'))
    refine ⟨_, _, _, rfl, hrest, fun _ hin => absurd hin hopen, fun _ _ e he => ?_,
      fun _ _ _ => ⟨_, _, hinner, rfl, rfl⟩, fun hnot => absurd hrecurs hnot⟩
    rw [hnew] at he
    cases he
  | anew hunit' hrecurs hinner hrest =>
    obtain rfl := Resolved.unit.inj (Option.some.inj (hunit.symm.trans hunit'))
    exact ⟨_, _, _, rfl, hrest, fun h => absurd h hrecurs, fun h => absurd h hrecurs,
      fun h => absurd h hrecurs, fun _ => ⟨_, hinner, rfl⟩⟩

/-- The same units that recur are open. -/
def OpenAlike (env env' : Environment) (u u' : WorkUnit) (opened opened' : List Digest) : Prop :=
  ∀ v v', Counterparts env env' u u' v v' → env.Recurs v →
    (v.identity ∈ opened ↔ v'.identity ∈ opened')

/-- The same has been noted about units that recur. -/
def NotedAlike (env env' : Environment) (u u' : WorkUnit) (found found' : Findings) : Prop :=
  ∀ v v', Counterparts env env' u u' v v' → env.Recurs v →
    found.lookup v.identity = found'.lookup v'.identity

/-- They are when counterparts are opened. -/
theorem OpenAlike.opens (h : OpenAlike env env' u u' opened opened')
    (hvaried : Varied env env' u u') (happart : env.TellsApart u) (happart' : env'.TellsApart u')
    (hkeeps : KeepsApart env env' u u') (hw : Counterparts env env' u u' w w') :
    OpenAlike env env' u u' (w.identity :: opened) (w'.identity :: opened') := by
  intro v v' hv hrecurs
  rw [List.mem_cons, List.mem_cons, h v v' hv hrecurs,
    hv.identity_iff hvaried happart happart' hkeeps hw hrecurs]

/-- It is when the same is noted about counterparts. -/
theorem NotedAlike.note (h : NotedAlike env env' u u' found found')
    (hkeeps : KeepsApart env env' u u') (hw : Counterparts env env' u u' w w')
    (hrecurs : env.Recurs w) (p : Purity) :
    NotedAlike env env' u u' ((w.identity, p) :: found) ((w'.identity, p) :: found') := by
  intro v v' hv hrecurs'
  have hiff := hkeeps v v' w w' hv hw hrecurs' hrecurs
  rw [List.lookup_cons, List.lookup_cons, h v v' hv hrecurs']
  by_cases hsame : v.identity = w.identity
  · rw [beq_iff_eq.2 hsame, beq_iff_eq.2 (hiff.1 hsame)]
  · rw [beq_eq_false_iff_ne.2 hsame, beq_eq_false_iff_ne.2 (hiff.not.1 hsame)]

/-- **Two trails write the same as long as recalled identities are kept.** -/
theorem Trail.vary (hash : HashFunction.CollisionFree) (hvaried : Varied env env' u u')
    (hregular : ∀ v, env.Meets u v → v.IsRegular) (happart' : env'.TellsApart u')
    (hkeeps : KeepsApart env env' u u')
    (h : env.Trail opened found names entries found₁)
    (h' : env'.Trail opened' found' names entries' found₂)
    (hnames : ∀ name ∈ names, env.Reaches u name) (hopen : OpenAlike env env' u u' opened opened')
    (hnoted : NotedAlike env env' u u' found found') (hfound : AreMessages found)
    (hknows : ∀ name k, Recalled entries name k →
      ∃ w, env'.bindings.get? name = some (.unit w) ∧ w.identity = k) :
    entries' = entries ∧ NotedAlike env env' u u' found₁ found₂ := by
  have happart := tellsApart hash hregular
  -- what stands for a unit here stands for its counterpart there
  have hcounter : ∀ {name : String} {w : WorkUnit}, env.Reaches u name →
      env.bindings.get? name = some (.unit w) → ∃ w', env'.bindings.get? name = some (.unit w') ∧
        Counterparts env env' u u' w w' ∧ w.outline = w'.outline := by
    intro name w hreach hunit
    obtain ⟨w', hunit', hw⟩ := hvaried.through hreach hunit
    exact ⟨w', hunit', .named hreach hunit hunit', hw.outline⟩
  -- on the first trail; the second one treats each name in the same way
  induction h generalizing opened' found' found₂ entries' with
  | nil =>
    cases h' with
    | nil => exact ⟨rfl, hnoted⟩
  | plain hplain _ ih =>
    obtain ⟨hreach, hreaches⟩ := List.forall_mem_cons.1 hnames
    obtain ⟨rest, rfl, hrest'⟩ := h'.plain_cases (hvaried.plain?_eq hreach ▸ hplain)
    obtain ⟨rfl, hnoted'⟩ := ih hrest' hreaches hopen hnoted hfound
      fun name k hk => hknows name k (recalled_cons_plain.2 hk)
    exact ⟨rfl, hnoted'⟩
  | @again _ _ _ name _ _ w hunit hrecurs hin _ ih =>
    obtain ⟨hreach, hreaches⟩ := List.forall_mem_cons.1 hnames
    obtain ⟨w', hunit', hw, -⟩ := hcounter hreach hunit
    obtain ⟨d', rest, found₃, rfl, hrest', hagain, -, -, -⟩ := h'.unit_cases hunit'
    obtain ⟨rfl, rfl⟩ := hagain ((hw.recurs_iff hvaried).1 hrecurs) ((hopen w w' hw hrecurs).1 hin)
    -- the identity is recalled, so it has been kept
    obtain ⟨x, hx, hkept⟩ := hknows name w.identity (recalled_cons_unit.2 (.inl ⟨rfl, rfl⟩))
    obtain rfl := Resolved.unit.inj (Option.some.inj (hunit'.symm.trans hx))
    obtain ⟨rfl, hnoted'⟩ := ih hrest' hreaches hopen hnoted hfound
      fun name k hk => hknows name k (recalled_cons_unit.2 (.inr (.inr hk)))
    exact ⟨by rw [hkept], hnoted'⟩
  | @known _ _ _ _ _ _ w d hunit hrecurs hout hknown _ ih =>
    obtain ⟨hreach, hreaches⟩ := List.forall_mem_cons.1 hnames
    obtain ⟨w', hunit', hw, -⟩ := hcounter hreach hunit
    have hknown' := (hnoted w w' hw hrecurs).symm.trans hknown
    obtain ⟨d', rest, found₃, rfl, hrest', -, hserved, -, -⟩ := h'.unit_cases hunit'
    obtain ⟨rfl, rfl⟩ := hserved ((hw.recurs_iff hvaried).1 hrecurs)
      ((hopen w w' hw hrecurs).not.1 hout) d hknown'
    obtain ⟨rfl, hnoted'⟩ := ih hrest' hreaches hopen hnoted hfound
      fun name k hk => hknows name k (recalled_cons_unit.2 (.inr (.inr hk)))
    exact ⟨rfl, hnoted'⟩
  | @inside _ _ _ _ _ _ inner _ w hunit hrecurs hout hnew hinner _ ihinner ih =>
    obtain ⟨hreach, hreaches⟩ := List.forall_mem_cons.1 hnames
    obtain ⟨w', hunit', hw, houtline⟩ := hcounter hreach hunit
    have hnew' := (hnoted w w' hw hrecurs).symm.trans hnew
    have hbody := hinner.body_regular hfound (hregular w hw.meets)
    have hnames' : w.freeVars.toList = w'.freeVars.toList := congrArg Outline.names houtline
    obtain ⟨d', rest, found₃, rfl, hrest', -, -, hopened, -⟩ := h'.unit_cases hunit'
    obtain ⟨inner', found₄, hinner', rfl, rfl⟩ := hopened ((hw.recurs_iff hvaried).1 hrecurs)
      ((hopen w w' hw hrecurs).not.1 hout) hnew'
    -- both have opened the unit, and they write the same inside
    obtain ⟨rfl, hnoted₁⟩ := ihinner (hnames' ▸ hinner')
      (fun name hname => hw.meets.reaches (.own hname))
      (hopen.opens hvaried happart happart' hkeeps hw) hnoted hfound
      fun name k hk => hknows name k
        (recalled_cons_unit.2 (.inr (.inl ((Body.recalls_iff hash hbody).2 hk))))
    rw [← houtline] at hrest' ⊢
    obtain ⟨rfl, hnoted'⟩ := ih hrest' hreaches hopen (hnoted₁.note hkeeps hw hrecurs _)
      ((hinner.regular hfound).1.cons ⟨_, rfl⟩)
      fun name k hk => hknows name k (recalled_cons_unit.2 (.inr (.inr hk)))
    exact ⟨rfl, hnoted'⟩
  | @anew _ _ _ _ _ _ inner _ w hunit hrecurs hinner _ ihinner ih =>
    obtain ⟨hreach, hreaches⟩ := List.forall_mem_cons.1 hnames
    obtain ⟨w', hunit', hw, houtline⟩ := hcounter hreach hunit
    have hbody := hinner.body_regular hfound (hregular w hw.meets)
    have hnames' : w.freeVars.toList = w'.freeVars.toList := congrArg Outline.names houtline
    obtain ⟨d', rest, found₃, rfl, hrest', -, -, -, hanew⟩ := h'.unit_cases hunit'
    obtain ⟨inner', hinner', rfl⟩ := hanew ((hw.recurs_iff hvaried).not.1 hrecurs)
    obtain ⟨rfl, hnoted₁⟩ := ihinner (hnames' ▸ hinner')
      (fun name hname => hw.meets.reaches (.own hname))
      (hopen.opens hvaried happart happart' hkeeps hw) hnoted hfound
      fun name k hk => hknows name k
        (recalled_cons_unit.2 (.inr (.inl ((Body.recalls_iff hash hbody).2 hk))))
    obtain ⟨rfl, hnoted'⟩ := ih hrest' hreaches hopen hnoted₁ (hinner.regular hfound).1
      fun name k hk => hknows name k (recalled_cons_unit.2 (.inr (.inr hk)))
    exact ⟨by rw [houtline], hnoted'⟩

/-! ## §4. Identities. -/

/-- **When details of modules change the digest of a unit.**  The unit is known by content in both
environments.  If units that recur are told apart in the one as in the other, the digest is the same
exactly when the units that it recalls have the identities that it recalls; so it is when units that
recur keep their identities, whatever becomes of all others. -/
theorem identify_varied (hash : HashFunction.CollisionFree) (hvaried : Varied env env' u u')
    (hregular : ∀ v, env.Meets u v → v.IsRegular)
    (hregular' : ∀ v, env'.Meets u' v → v.IsRegular) {d : Digest}
    (h : identify env false u = .ok (.content d)) :
    (∃ d', identify env' false u' = .ok (.content d')) ∧
    (KeepsApart env env' u u' → (identify env' false u' = .ok (.content d) ↔ env'.Knows d)) ∧
    ((∀ v v', Counterparts env env' u u' v v' → env.Recurs v → v'.identity = v.identity) →
      identify env' false u' = .ok (.content d)) := by
  have happart := tellsApart hash hregular
  have happart' := tellsApart hash hregular'
  have hnone : AreMessages [] := fun key d hmem => absurd hmem List.not_mem_nil
  have hnames : u.freeVars.toList = u'.freeVars.toList := congrArg Outline.names hvaried.outline
  obtain ⟨entries, booked, htrail, rfl⟩ := trail_of_purity happart (identify_eq_content_iff.1 h)
  obtain ⟨d', hd'⟩ := purity_of_pure hvaried.untainted
  obtain ⟨entries', booked', htrail', rfl⟩ := trail_of_purity happart' hd'
  have hbody := htrail.body_regular hnone (hregular u .root)
  have hbody' := htrail'.body_regular hnone (hregular' u' .root)
  -- both digests recall units that recur
  obtain ⟨-, hrecalled⟩ := htrail.recalled hash hregular (fun name hname => .own hname) hnone
    fun key d hmem => absurd hmem List.not_mem_nil
  obtain ⟨-, hrecalled'⟩ := htrail'.recalled hash hregular' (fun name hname => .own hname) hnone
    fun key d hmem => absurd hmem List.not_mem_nil
  have hkept : KeepsApart env env' u u' → env'.Knows (u.outline.body entries).digest →
      identify env' false u' = .ok (.content (u.outline.body entries).digest) := by
    intro hkeeps hknows
    have hopen : OpenAlike env env' u u' [u.identity] [u'.identity] := by
      intro v v' hv hrecurs
      rw [List.mem_singleton, List.mem_singleton]
      exact hv.identity_iff hvaried happart happart' hkeeps .root hrecurs
    have hsecond : env'.Trail [u'.identity] [] u.freeVars.toList entries' booked' := by
      rw [hnames]
      exact htrail'
    have hnoted : NotedAlike env env' u u' [] [] := by
      intro v v' hv hrecurs
      rw [List.lookup_nil, List.lookup_nil]
    have hinside : ∀ name k, Recalled entries name k →
        ∃ w, env'.bindings.get? name = some (.unit w) ∧ w.identity = k :=
      fun name k hk => hknows name k ((Body.recalls_iff hash hbody).2 hk)
    obtain ⟨rfl, -⟩ := htrail.vary hash hvaried hregular happart' hkeeps hsecond
      (fun name hname => .own hname) hopen hnoted hnone hinside
    rw [hvaried.outline]
    exact identify_of_pure hd'
  refine ⟨⟨_, identify_of_pure hd'⟩, fun hkeeps => ⟨fun hsame => ?_, hkept hkeeps⟩, fun hsame => ?_⟩
  · -- the digest is the one found in the other environment, which recalls its own units
    have heq := Strategy.content.inj (Except.ok.inj (hsame.symm.trans (identify_of_pure hd')))
    intro name k hrecalls
    rw [heq] at hrecalls
    obtain ⟨w, -, hunit, -, hidentity⟩ :=
      hrecalled' name k ((Body.recalls_iff hash hbody').1 hrecalls)
    exact ⟨w, hunit, hidentity⟩
  · refine hkept (fun v v' w w' hv hw hrecurs hrecurs' => ?_) fun name k hrecalls => ?_
    · rw [hsame v v' hv hrecurs, hsame w w' hw hrecurs']
    · obtain ⟨w, hreach, hunit, hrecurs, hidentity⟩ :=
        hrecalled name k ((Body.recalls_iff hash hbody).1 hrecalls)
      obtain ⟨w', hunit', -⟩ := hvaried.through hreach hunit
      exact ⟨w', hunit', (hsame w w' (.named hreach hunit hunit') hrecurs).trans hidentity⟩

/-- A unit that calls itself and knows a module by an alias. -/
def summation (localName : String) : WorkUnit where
  name := "sum"
  source := "np.add(x, sum(xs))"
  freeVars := .ofList ["sum"]
  modules := [{ name := "numpy", localName := some localName }]

/-- A unit that calls the former, and knows the module by an alias, too. -/
def average (localName : String) : WorkUnit where
  name := "mean"
  source := "np.divide(sum(xs), n)"
  freeVars := .ofList ["sum"]
  modules := [{ name := "numpy", localName := some localName }]

/-- The unit that calls itself. -/
def numerics (localName : String) : Environment where
  bindings := .ofList [("sum", .unit (summation localName))]

omit [HashFunction] in
theorem numerics_get? (localName name : String) : (numerics localName).bindings.get? name =
    if name = "sum" then some (.unit (summation localName)) else none := by
  simp [numerics, Table.ofList, Table.get?_insert]

omit [HashFunction] in
theorem numerics_unit {localName name : String} {w : WorkUnit}
    (h : (numerics localName).bindings.get? name = some (.unit w)) : w = summation localName := by
  rw [numerics_get?] at h
  split_ifs at h
  exact (Resolved.unit.inj (Option.some.inj h)).symm

omit [HashFunction] in
theorem numerics_reaches {localName name : String} {u : WorkUnit} (hu : u.freeVars.toList = ["sum"])
    (h : (numerics localName).Reaches u name) : name = "sum" := by
  induction h with
  | own hown => simpa [hu] using hown
  | through hvia hunit hreach ih => exact ih (numerics_unit hunit ▸ rfl)

/-- It is known by its source, the name of the module, and its own structural identity. -/
theorem identify_summation (localName : String) :
    identify (numerics localName) false (summation localName) = .ok (.content
      ((summation localName).outline.body
        [("sum", .unit (recursionDigest (summation localName).identity))]).digest) := by
  have hwalk : (numerics localName).Walk false [(summation localName).identity] [] ["sum"]
      [("sum", .unit (recursionDigest (summation localName).identity))] [] :=
    .again (by rw [numerics_get?]; rfl) (List.mem_singleton_self _) .nil
  refine identify_eq_content_iff.2 (purity_eq_pure_iff.2
    ⟨_, [], _, [], moduleDigests_unpinned _ _, hwalk, ?_⟩)
  rw [WorkUnit.body_unpinned (moduleDigests_unpinned _ [])]

omit [HashFunction] in
/-- Whatever their alias of the module, the units reach alike names. -/
theorem numerics_varied {u u' : WorkUnit} (hu : u.freeVars.toList = ["sum"])
    (houtline : u.outline = u'.outline) (localName localName' : String) :
    Varied (numerics localName) (numerics localName') u u' := by
  refine ⟨houtline, fun name hreach => ?_⟩
  obtain rfl := numerics_reaches hu hreach
  rw [numerics_get?, numerics_get?, if_pos rfl, if_pos rfl]
  exact .unit rfl

omit [HashFunction] in
/-- Units that differ in the alias have one outline. -/
theorem summation_outline (localName localName' : String) :
    (summation localName).outline = (summation localName').outline := rfl

omit [HashFunction] in
theorem average_outline (localName localName' : String) :
    (average localName).outline = (average localName').outline := rfl

omit [HashFunction] in
/-- Their texts are short. -/
theorem numerics_regular {u v : WorkUnit} {localName : String} (hu : u.IsRegular)
    (hregular : (summation localName).IsRegular) (hv : (numerics localName).Meets u v) :
    v.IsRegular := by
  cases hv with
  | root => exact hu
  | named hreach hunit => exact numerics_unit hunit ▸ hregular

omit [HashFunction] in
theorem numerics_short {localName : String} (h : localName = "np" ∨ localName = "npy") :
    (summation localName).IsRegular ∧ (average localName).IsRegular := by
  rcases h with rfl | rfl
  · exact ⟨⟨by decide +kernel, by decide +kernel, by decide +kernel⟩,
      ⟨by decide +kernel, by decide +kernel, by decide +kernel⟩⟩
  · exact ⟨⟨by decide +kernel, by decide +kernel, by decide +kernel⟩,
      ⟨by decide +kernel, by decide +kernel, by decide +kernel⟩⟩

/-- The alias tells the structural identities of the unit apart. -/
theorem summation_identity_ne (hash : HashFunction.CollisionFree) :
    (summation "np").identity ≠ (summation "npy").identity := by
  intro heq
  have hnp : (summation "np").IsRegular := (numerics_short (.inl rfl)).1
  have hnpy : (summation "npy").IsRegular := (numerics_short (.inr rfl)).1
  obtain ⟨-, -, htexts⟩ := WorkUnit.written_eq_of_identity hash hnp hnpy heq
  exact absurd htexts (by decide +kernel)

/-- The content of the unit is regular, and all it recalls is the unit itself. -/
theorem summation_body_regular (localName : String) (k : Digest) :
    ((summation localName).outline.body [("sum", .unit (recursionDigest k))]).IsRegular := by
  have hsource : IsShort (normalSource "np.add(x, sum(xs))") := by decide +kernel
  refine Outline.body_regular hsource fun e he => ?_
  obtain rfl := List.mem_singleton.1 he
  exact ⟨(by decide : IsShort "sum"), _, rfl⟩

omit [HashFunction] in
/-- The alias in a unit that calls a recursive one does not count, and the alias in the recursive one
does. -/
theorem numerics_details :
    let _ := HashFunction.spelled
    HashFunction.CollisionFree ∧
      (∃ d, identify (numerics "np") false (average "np") = .ok (.content d) ∧
        identify (numerics "np") false (average "npy") = .ok (.content d)) ∧
      ∃ d, identify (numerics "np") false (summation "np") = .ok (.content d) ∧
        identify (numerics "npy") false (summation "npy") ≠ .ok (.content d) := by
  intro _
  have hash := HashFunction.spelled_collisionFree
  obtain ⟨hsum, haverage⟩ := numerics_short (.inl rfl)
  obtain ⟨hsum', haverage'⟩ := numerics_short (.inr rfl)
  refine ⟨hash, ?_, ?_⟩
  · have hvaried : Varied (numerics "np") (numerics "np") (average "np") (average "npy") :=
      numerics_varied rfl (average_outline _ _) "np" "np"
    have hself : Varied (numerics "np") (numerics "np") (average "np") (average "np") :=
      numerics_varied rfl (average_outline _ _) "np" "np"
    obtain ⟨d, hd⟩ := purity_of_pure hself.untainted
    refine ⟨d, identify_of_pure hd, (identify_varied hash hvaried
      (fun v => numerics_regular haverage hsum) (fun v => numerics_regular haverage' hsum)
      (identify_of_pure hd)).2.2 fun v v' hv hrecurs => ?_⟩
    cases hv with
    | root =>
      -- the unit calls none of its own source
      obtain ⟨name, w, hreach, hunit, houtline⟩ := hrecurs
      obtain rfl := numerics_unit hunit
      exact absurd (congrArg Outline.source houtline) (by decide +kernel)
    | named hreach hunit hunit' =>
      rw [numerics_unit hunit, numerics_unit hunit']
  · refine ⟨_, identify_summation "np", fun hsame => ?_⟩
    have hvaried : Varied (numerics "np") (numerics "npy") (summation "np") (summation "npy") :=
      numerics_varied rfl (summation_outline _ _) "np" "npy"
    have honly : ∀ v v', Counterparts (numerics "np") (numerics "npy") (summation "np")
        (summation "npy") v v' → v = summation "np" ∧ v' = summation "npy" := by
      intro v v' hv
      cases hv with
      | root => exact ⟨rfl, rfl⟩
      | named hreach hunit hunit' => exact ⟨numerics_unit hunit, numerics_unit hunit'⟩
    have hknows := ((identify_varied hash hvaried (fun v => numerics_regular hsum hsum)
      (fun v => numerics_regular hsum' hsum') (identify_summation "np")).2.1
      fun v v' w w' hv hw _ _ => by
        obtain ⟨rfl, rfl⟩ := honly v v' hv
        obtain ⟨rfl, rfl⟩ := honly w w' hw
        exact ⟨fun _ => rfl, fun _ => rfl⟩).1 hsame
    have hregular := summation_body_regular "np" (summation "np").identity
    obtain ⟨w, hunit, hidentity⟩ := hknows "sum" (summation "np").identity
      (.here _ hregular rfl (List.mem_singleton_self _))
    obtain rfl := numerics_unit hunit
    exact summation_identity_ne hash hidentity.symm

omit [HashFunction] in
/-- Another alias in a recursive unit gives it another digest. -/
theorem alias_changesDigest :
    let _ := HashFunction.spelled
    HashFunction.CollisionFree ∧
      Varied (numerics "np") (numerics "npy") (summation "np") (summation "npy") ∧
      ∃ d d', identify (numerics "np") false (summation "np") = .ok (.content d) ∧
        identify (numerics "npy") false (summation "npy") = .ok (.content d') ∧ d ≠ d' := by
  intro _
  have hash := HashFunction.spelled_collisionFree
  have hvaried : Varied (numerics "np") (numerics "npy") (summation "np") (summation "npy") :=
    numerics_varied rfl (summation_outline _ _) "np" "npy"
  refine ⟨hash, hvaried, _, _, identify_summation "np", identify_summation "npy", fun heq => ?_⟩
  have hbody := Body.digest_injective hash (summation_body_regular _ _)
    (summation_body_regular _ _) heq
  have hentry := congrArg Body.entries hbody
  simp only [Outline.body, List.cons.injEq, Prod.mk.injEq, Entry.unit.injEq, true_and,
    and_true] at hentry
  exact summation_identity_ne hash (recursionDigest_injective hash hentry)

end Environment

end Notebook
