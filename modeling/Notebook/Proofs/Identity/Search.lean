/-
  Notebook.Proofs.Identity.Search — the search for a content, as a relation.

  The search that hashes a unit keeps the identities of open units and what it has found out so far,
  and it bounds its depth.  `Environment.Walk` says which walks through names end with all names
  told, without a bound and without the ways to fail: one rule for a name that stands for no unit,
  and one for each way to treat a unit.  A unit has a content exactly when there is such a walk
  through its names (`Environment.purity_eq_pure_iff`), pinned or not, so what is said of contents
  is shown by induction on walks.

  Main results:
    * `Environment.purity_eq_pure_iff` — a unit has a content exactly when its names can be walked,
    * `Environment.Walk.closed` — a walk goes through all that it reaches,
    * `Environment.Closed.passed` — in the end everything reachable has been gone through.
-/
import Notebook.Proofs.Identity.Exactness

namespace Notebook

variable [HashFunction]

namespace Environment

variable {env : Environment} {pinned : Bool} {root : Digest} {depth : Nat}
  {opened opened' : List Digest} {u v w : WorkUnit} {found found' : Findings} {d : Digest}
  {name : String} {names : List String} {entries : List (String × Entry)}

/-! ## §1. Units that are met. -/

/-- The units that a search can meet: the root, and what the names that it reaches stand for. -/
inductive Meets (env : Environment) (u : WorkUnit) : WorkUnit → Prop
  | root : Meets env u u
  | named {name : String} {w : WorkUnit} (hreach : env.Reaches u name)
      (hunit : env.bindings.get? name = some (.unit w)) : Meets env u w

omit [HashFunction] in
theorem Reaches.trans {via : String} (h : env.Reaches u via)
    (hunit : env.bindings.get? via = some (.unit w)) (hname : env.Reaches w name) :
    env.Reaches u name := by
  induction h with
  | own hown => exact .through hown hunit hname
  | through hvia hunit' _ ih => exact .through hvia hunit' (ih hunit)

omit [HashFunction] in
theorem Meets.reaches (h : env.Meets u v) (hname : env.Reaches v name) : env.Reaches u name := by
  cases h with
  | root => exact hname
  | named hreach hunit => exact hreach.trans hunit hname

/-- Of the units that are met, those of one structural identity have one outline. -/
def TellsApart (env : Environment) (u : WorkUnit) : Prop :=
  ∀ v w, env.Meets u v → env.Meets u w → v.identity = w.identity → v.outline = w.outline

/-- So it is without collisions. -/
theorem tellsApart (hash : HashFunction.CollisionFree)
    (hregular : ∀ v, env.Meets u v → v.IsRegular) : env.TellsApart u :=
  fun v w hv hw hidentity =>
    v.outline_eq_of_identity hash (hregular v hv) (hregular w hw) hidentity

/-! ## §2. Walks. -/

/-- What is written beside a name that stands for no unit and nothing impure. -/
def plain? (env : Environment) (pinned : Bool) (name : String) : Option Field :=
  match env.bindings.get? name with
  | none => some ⟨"unbound", []⟩
  | some (.value v) => some (.ofDigest "value" (.ofValue v))
  | some (.module m) =>
    (moduleDigest pinned m []).toOption.map fun found => .ofDigest "module" found.1
  | some (.unit _) => none
  | some (.impure _) => none

/-- A walk through names with these identities open: what is written beside the names, and what has
been found out before and after. -/
inductive Walk (env : Environment) (pinned : Bool) : (opened : List Digest) → Findings →
    List String → List (String × Entry) → Findings → Prop
  | nil {opened : List Digest} {found : Findings} : Walk env pinned opened found [] [] found
  | plain {opened : List Digest} {found found' : Findings} {name : String} {names : List String}
      {entries : List (String × Entry)} {f : Field} (hplain : env.plain? pinned name = some f)
      (hrest : Walk env pinned opened found names entries found') :
      Walk env pinned opened found (name :: names) ((name, .plain f) :: entries) found'
  /-- A unit that is open counts by its identity. -/
  | again {opened : List Digest} {found found' : Findings} {name : String} {names : List String}
      {entries : List (String × Entry)} {w : WorkUnit}
      (hunit : env.bindings.get? name = some (.unit w)) (hopen : w.identity ∈ opened)
      (hrest : Walk env pinned opened found names entries found') :
      Walk env pinned opened found (name :: names)
        ((name, .unit (recursionDigest w.identity)) :: entries) found'
  /-- A unit that has been found out about counts by what was found. -/
  | known {opened : List Digest} {found found' : Findings} {name : String} {names : List String}
      {entries : List (String × Entry)} {w : WorkUnit} {d : Digest}
      (hunit : env.bindings.get? name = some (.unit w)) (hopen : w.identity ∉ opened)
      (hknown : found.lookup w.identity = some (.pure d))
      (hrest : Walk env pinned opened found names entries found') :
      Walk env pinned opened found (name :: names) ((name, .unit d) :: entries) found'
  /-- Any other unit is opened, and its names are walked through. -/
  | inside {opened : List Digest} {found found₁ found' : Findings} {name : String}
      {names : List String} {inner entries : List (String × Entry)} {w : WorkUnit}
      {modules : List Digest} {seen : List String}
      (hunit : env.bindings.get? name = some (.unit w)) (hopen : w.identity ∉ opened)
      (hnew : found.lookup w.identity = none)
      (hmodules : moduleDigests pinned w.modules [] = .ok (modules, seen))
      (hinner : Walk env pinned (w.identity :: opened) found w.freeVars.toList inner found₁)
      (hrest : Walk env pinned opened
        ((w.identity, .pure (Body.digest ⟨w.normalSource, modules, inner⟩)) :: found₁)
        names entries found') :
      Walk env pinned opened found (name :: names)
        ((name, .unit (Body.digest ⟨w.normalSource, modules, inner⟩)) :: entries) found'

/-! ## §3. What the search does in one step. -/

/-- What a visit does that ends with a digest. -/
theorem purityAt_eq_pure
    (h : purityAt env pinned (depth + 1) opened u found = .ok (.pure d, found')) :
    (u.identity ∈ opened ∧ d = recursionDigest u.identity ∧ found' = found) ∨
    (u.identity ∉ opened ∧ found.lookup u.identity = some (.pure d) ∧ found' = found) ∨
    (u.identity ∉ opened ∧ found.lookup u.identity = none ∧
      ∃ modules seen fields found₁, moduleDigests pinned u.modules [] = .ok (modules, seen) ∧
        contributions env pinned u.name (purityAt env pinned depth (u.identity :: opened))
          u.freeVars.toList found = .ok (.fields fields, found₁) ∧
        d = .ofFields "content" (.ofText "source" u.normalSource ::
          modules.map (.ofDigest "module") ++ fields) ∧
        found' = (u.identity, .pure d) :: found₁) := by
  unfold purityAt at h
  by_cases hopen : u.identity ∈ opened
  · simp only [List.contains_iff_mem.2 hopen, if_true] at h
    obtain ⟨hd, hfound⟩ := Prod.mk.inj (Except.ok.inj h)
    exact .inl ⟨hopen, (Purity.pure.inj hd).symm, hfound.symm⟩
  simp only [List.contains_iff_mem.not.2 hopen, if_false, Bool.false_eq_true] at h
  cases hlookup : found.lookup u.identity with
  | some known =>
    simp only [hlookup] at h
    obtain ⟨rfl, rfl⟩ := Prod.mk.inj (Except.ok.inj h)
    exact .inr (.inl ⟨hopen, rfl, rfl⟩)
  | none =>
    simp only [hlookup] at h
    split at h
    case h_1 => cases h
    case h_2 modules seen hmodules =>
      split at h
      case h_1 => cases h
      case h_2 => cases h
      case h_3 fields found₁ hwalk =>
        obtain ⟨hd, hfound⟩ := Prod.mk.inj (Except.ok.inj h)
        obtain rfl := Purity.pure.inj hd
        exact .inr (.inr ⟨hopen, rfl, modules, seen, fields, found₁, hmodules, hwalk, rfl,
          hfound.symm⟩)

/-- A name and what is written beside it, before whatever the walk through the others gave. -/
def told (name : String) (f : Field) :
    Except Error (Contribution × Findings) → Except Error (Contribution × Findings)
  | .ok (.fields fields, found) => .ok (.fields (.ofText "var" name :: f :: fields), found)
  | other => other

omit [HashFunction] in
/-- All names are told only if the others are. -/
theorem told_eq_fields {f : Field} {fields : List Field}
    {walked : Except Error (Contribution × Findings)}
    (h : told name f walked = .ok (.fields fields, found')) :
    ∃ fields', fields = .ofText "var" name :: f :: fields' ∧
      walked = .ok (.fields fields', found') := by
  cases walked with
  | error e => cases h
  | ok walked =>
    obtain ⟨contribution, found₁⟩ := walked
    cases contribution with
    | impure reason => cases h
    | fields fields' =>
      obtain ⟨hfields, rfl⟩ := Prod.mk.inj (Except.ok.inj h)
      exact ⟨fields', (Contribution.fields.inj hfields).symm, rfl⟩

/-- What a walk does with its first name when it ends with all names told. -/
theorem contributions_cons_eq_fields {unit : String} {fields : List Field}
    {inner : WorkUnit → Findings → Except Error (Purity × Findings)}
    (h : contributions env pinned unit inner (name :: names) found = .ok (.fields fields, found')) :
    ∃ (entry : Entry) (fields' : List Field) (found₁ : Findings),
      fields = .ofText "var" name :: entry.field :: fields' ∧
      contributions env pinned unit inner names found₁ = .ok (.fields fields', found') ∧
      ((∃ f, env.plain? pinned name = some f ∧ entry = .plain f ∧ found₁ = found) ∨
        ∃ w d, env.bindings.get? name = some (.unit w) ∧
          inner w found = .ok (.pure d, found₁) ∧ entry = .unit d) := by
  unfold contributions at h
  dsimp only at h
  cases hget : env.bindings.get? name with
  | none =>
    simp only [hget] at h
    obtain ⟨fields', rfl, hwalk⟩ := told_eq_fields h
    exact ⟨.plain ⟨"unbound", []⟩, fields', found, rfl, hwalk,
      .inl ⟨_, by simp [plain?, hget], rfl, rfl⟩⟩
  | some r =>
    simp only [hget] at h
    cases r with
    | value a =>
      obtain ⟨fields', rfl, hwalk⟩ := told_eq_fields h
      exact ⟨.plain (.ofDigest "value" (.ofValue a)), fields', found, rfl, hwalk,
        .inl ⟨_, by simp [plain?, hget], rfl, rfl⟩⟩
    | module m =>
      cases hmodule : moduleDigest pinned m [] with
      | error e => simp [hmodule] at h
      | ok hashed =>
        simp only [hmodule] at h
        obtain ⟨fields', rfl, hwalk⟩ := told_eq_fields h
        exact ⟨.plain (.ofDigest "module" hashed.1), fields', found, rfl, hwalk,
          .inl ⟨_, by simp [plain?, hget, hmodule, Except.toOption], rfl, rfl⟩⟩
    | unit w =>
      cases hvisit : inner w found with
      | error e => simp [hvisit] at h
      | ok visited =>
        obtain ⟨p, found₁⟩ := visited
        cases p with
        | impure reason => simp [hvisit] at h
        | pure d =>
          simp only [hvisit] at h
          obtain ⟨fields', rfl, hwalk⟩ := told_eq_fields h
          exact ⟨.unit d, fields', found₁, rfl, hwalk, .inr ⟨w, d, rfl, hvisit, rfl⟩⟩
    | impure reason => simp at h

/-- A name that stands for no unit is told, and the others follow. -/
theorem contributions_cons_plain {unit : String} {f : Field} {fields : List Field}
    {inner : WorkUnit → Findings → Except Error (Purity × Findings)}
    (hplain : env.plain? pinned name = some f)
    (hrest : contributions env pinned unit inner names found = .ok (.fields fields, found')) :
    contributions env pinned unit inner (name :: names) found =
      .ok (.fields (.ofText "var" name :: f :: fields), found') := by
  unfold plain? at hplain
  unfold contributions
  dsimp only
  cases hget : env.bindings.get? name with
  | none =>
    simp only [hget, Option.some.injEq] at hplain
    simp [hrest, hplain]
  | some r =>
    cases r with
    | value a =>
      simp only [hget, Option.some.injEq] at hplain
      simp [hrest, hplain]
    | module m =>
      cases hmodule : moduleDigest pinned m [] with
      | error e => simp [hget, hmodule, Except.toOption] at hplain
      | ok hashed =>
        simp only [hget, hmodule, Except.toOption, Option.map_some, Option.some.injEq] at hplain
        simp [hrest, hmodule, hplain]
    | unit w => simp [hget] at hplain
    | impure reason => simp [hget] at hplain

/-- A name that stands for a unit is told by the digest of a visit. -/
theorem contributions_cons_unit {unit : String} {fields : List Field} {found₁ : Findings}
    {inner : WorkUnit → Findings → Except Error (Purity × Findings)}
    (hunit : env.bindings.get? name = some (.unit w))
    (hvisit : inner w found = .ok (.pure d, found₁))
    (hrest : contributions env pinned unit inner names found₁ = .ok (.fields fields, found')) :
    contributions env pinned unit inner (name :: names) found =
      .ok (.fields (.ofText "var" name :: .ofDigest "unit" d :: fields), found') := by
  simp only [contributions, hunit, hvisit, hrest]

/-! ## §4. Walks are what the search does. -/

/-- What the search does with names is a walk. -/
theorem walk_of_contributions {unit : String} {fields : List Field}
    (hroom : env.HasRoom root depth opened)
    (h : contributions env pinned unit (purityAt env pinned depth opened) names found =
      .ok (.fields fields, found')) :
    ∃ entries, env.Walk pinned opened found names entries found' ∧
      fields = entryFields entries := by
  -- on the depth, and for each depth on the names
  induction depth generalizing opened unit names fields found found' with
  | zero => exact absurd rfl hroom.depth_ne_zero
  | succ depth ih =>
    induction names generalizing fields found with
    | nil =>
      unfold contributions at h
      obtain ⟨hfields, rfl⟩ := Prod.mk.inj (Except.ok.inj h)
      exact ⟨[], .nil, (Contribution.fields.inj hfields).symm⟩
    | cons name names ihnames =>
      obtain ⟨entry, fields', found₁, rfl, hrest, hentry⟩ := contributions_cons_eq_fields h
      obtain ⟨entries, hwalk, rfl⟩ := ihnames hrest
      refine ⟨(name, entry) :: entries, ?_, rfl⟩
      rcases hentry with ⟨f, hplain, rfl, rfl⟩ | ⟨w, d, hunit, hvisit, rfl⟩
      · exact .plain hplain hwalk
      · rcases purityAt_eq_pure hvisit with ⟨hopen, rfl, rfl⟩ | ⟨hopen, hknown, rfl⟩ |
          ⟨hopen, hnew, modules, seen, inside, found₂, hmodules, hinside, rfl, rfl⟩
        · exact .again hunit hopen hwalk
        · exact .known hunit hopen hknown hwalk
        · obtain ⟨inner, hinner, rfl⟩ :=
            ih (hroom.opens (identity_mem_openable hunit) hopen) hinside
          exact .inside hunit hopen hnew hmodules hinner hwalk

/-- Every walk is what the search does, as far as there is room. -/
theorem Walk.contributions (h : env.Walk pinned opened found names entries found')
    (hroom : env.HasRoom root depth opened) (unit : String) :
    contributions env pinned unit (purityAt env pinned depth opened) names found =
      .ok (.fields (entryFields entries), found') := by
  induction h generalizing depth unit with
  | nil => rfl
  | plain hplain _ ih => exact contributions_cons_plain hplain (ih hroom unit)
  | again hunit hopen _ ih =>
    obtain ⟨depth, rfl⟩ := Nat.exists_eq_succ_of_ne_zero hroom.depth_ne_zero
    refine contributions_cons_unit hunit ?_ (ih hroom unit)
    unfold purityAt
    simp only [List.contains_iff_mem.2 hopen, if_true]
  | known hunit hopen hknown _ ih =>
    obtain ⟨depth, rfl⟩ := Nat.exists_eq_succ_of_ne_zero hroom.depth_ne_zero
    refine contributions_cons_unit hunit ?_ (ih hroom unit)
    unfold purityAt
    simp only [List.contains_iff_mem.not.2 hopen, if_false, Bool.false_eq_true, hknown]
  | inside hunit hopen hnew hmodules _ _ ihinner ih =>
    obtain ⟨depth, rfl⟩ := Nat.exists_eq_succ_of_ne_zero hroom.depth_ne_zero
    refine contributions_cons_unit hunit ?_ (ih hroom unit)
    unfold purityAt
    simp only [List.contains_iff_mem.not.2 hopen, if_false, Bool.false_eq_true, hnew, hmodules,
      ihinner (hroom.opens (identity_mem_openable hunit) hopen)]
    rfl

/-- **A unit has a content exactly when its names can be walked through.** -/
theorem purity_eq_pure_iff : purity env pinned u = .ok (.pure d) ↔
    ∃ modules seen entries found, moduleDigests pinned u.modules [] = .ok (modules, seen) ∧
      env.Walk pinned [u.identity] [] u.freeVars.toList entries found ∧
      d = Body.digest ⟨u.normalSource, modules, entries⟩ := by
  have hroom := env.hasRoom_maxOpen u.identity
  obtain ⟨depth, hdepth⟩ := Nat.exists_eq_succ_of_ne_zero hroom.depth_ne_zero
  rw [hdepth] at hroom
  have hinside := hroom.opens (List.mem_cons_self ..) List.not_mem_nil
  unfold purity
  rw [hdepth]
  constructor
  · intro h
    cases hvisit : purityAt env pinned (depth + 1) [] u [] with
    | error e => simp [hvisit, Except.map] at h
    | ok visited =>
      obtain ⟨p, found⟩ := visited
      rw [hvisit] at h
      obtain rfl : p = .pure d := Except.ok.inj h
      rcases purityAt_eq_pure hvisit with ⟨hopen, -⟩ | ⟨-, hknown, -⟩ |
        ⟨-, -, modules, seen, fields, found₁, hmodules, hwalk, hd, -⟩
      · cases hopen
      · cases hknown
      · obtain ⟨entries, hwalked, rfl⟩ := walk_of_contributions hinside hwalk
        exact ⟨modules, seen, entries, found₁, hmodules, hwalked, hd⟩
  · rintro ⟨modules, seen, entries, found, hmodules, hwalk, rfl⟩
    unfold purityAt
    simp only [List.contains_nil, if_false, Bool.false_eq_true, List.lookup_nil, hmodules,
      hwalk.contributions hinside u.name]
    rfl

/-- A unit is known by content only when it has one. -/
theorem identify_eq_content_iff : identify env pinned u = .ok (.content d) ↔
    purity env pinned u = .ok (.pure d) := by
  refine ⟨fun h => ?_, identify_of_pure⟩
  unfold identify at h
  cases hpurity : purity env pinned u with
  | error e => simp [hpurity] at h
  | ok p =>
    rw [hpurity] at h
    cases p with
    | pure d' => rw [Strategy.content.inj (Except.ok.inj h)]
    | impure reason => cases htrace : env.trace u <;> simp [htrace, executionPath] at h

/-! ## §5. Walks go through everything. -/

/-- A name that has been gone through: it stands for nothing impure, and a unit that it stands for
is open, or has been found out about. -/
structure Passed (env : Environment) (opened : List Digest) (found : Findings) (name : String) :
    Prop where
  pure : ∀ reason, env.bindings.get? name ≠ some (.impure reason)
  settled : env.Settled opened found name

theorem Passed.mono (h : env.Passed opened found name) (hsub : found ⊆ found') :
    env.Passed opened found' name := ⟨h.pure, h.settled.mono hsub⟩

theorem Passed.close {key : Digest} {p : Purity} (h : env.Passed (key :: opened) found name) :
    env.Passed opened ((key, p) :: found) name := ⟨h.pure, h.settled.close⟩

theorem Passed.of_open {key : Digest} (h : env.Passed opened found name) :
    env.Passed (key :: opened) found name := ⟨h.pure, h.settled.of_open⟩

/-- What has been found out is about units that are met, and their names have been gone through. -/
def Closed (env : Environment) (u : WorkUnit) (opened : List Digest) (found : Findings) : Prop :=
  ∀ e ∈ found, ∃ v, env.Meets u v ∧ v.identity = e.1 ∧
    ∀ name ∈ v.freeVars.toList, env.Passed opened found name

theorem Closed.of_open {key : Digest} (h : env.Closed u opened found) :
    env.Closed u (key :: opened) found := by
  intro e he
  obtain ⟨v, hv, hidentity, hnames⟩ := h e he
  exact ⟨v, hv, hidentity, fun name hname => (hnames name hname).of_open⟩

/-- It stays so when a unit is done and its digest noted. -/
theorem Closed.close {key : Digest} {p : Purity} (h : env.Closed u (key :: opened) found)
    (hv : env.Meets u v) (hkey : v.identity = key)
    (hnames : ∀ name ∈ v.freeVars.toList, env.Passed (key :: opened) found name) :
    env.Closed u opened ((key, p) :: found) := by
  intro e he
  rcases List.mem_cons.1 he with rfl | he
  · exact ⟨v, hv, hkey, fun name hname => (hnames name hname).close⟩
  · obtain ⟨v', hv', hidentity, hnames'⟩ := h e he
    exact ⟨v', hv', hidentity, fun name hname => (hnames' name hname).close⟩

theorem Passed.of_plain {f : Field} (hplain : env.plain? pinned name = some f)
    (opened : List Digest) (found : Findings) : env.Passed opened found name := by
  unfold plain? at hplain
  constructor
  · intro reason hget
    simp [hget] at hplain
  · intro w hw
    simp [hw] at hplain

theorem Passed.of_unit (hunit : env.bindings.get? name = some (.unit w))
    (h : w.identity ∈ opened ∨ ∃ p, (w.identity, p) ∈ found) : env.Passed opened found name := by
  constructor
  · intro reason hget
    simp [hunit] at hget
  · intro w' hw'
    obtain rfl := Resolved.unit.inj (Option.some.inj (hunit.symm.trans hw'))
    exact h

omit [HashFunction] in
theorem mem_of_lookup {key : Digest} {p : Purity} (h : found.lookup key = some p) :
    (key, p) ∈ found := by
  obtain ⟨before, after, rfl, -⟩ := List.lookup_eq_some_iff.1 h
  exact List.mem_append_right _ (List.mem_cons_self ..)

/-- **A walk goes through all that it reaches**: its names, and the names of each unit that it finds
out about. -/
theorem Walk.closed (h : env.Walk pinned opened found names entries found')
    (hnames : ∀ name ∈ names, env.Reaches u name) (hclosed : env.Closed u opened found) :
    found ⊆ found' ∧ env.Closed u opened found' ∧
      ∀ name ∈ names, env.Passed opened found' name := by
  induction h with
  | nil => exact ⟨List.Subset.refl _, hclosed, by simp⟩
  | plain hplain _ ih =>
    obtain ⟨hsub, hclosed', hpassed⟩ := ih (List.forall_mem_cons.1 hnames).2 hclosed
    exact ⟨hsub, hclosed', List.forall_mem_cons.2 ⟨.of_plain hplain _ _, hpassed⟩⟩
  | again hunit hopen _ ih =>
    obtain ⟨hsub, hclosed', hpassed⟩ := ih (List.forall_mem_cons.1 hnames).2 hclosed
    exact ⟨hsub, hclosed', List.forall_mem_cons.2 ⟨.of_unit hunit (.inl hopen), hpassed⟩⟩
  | known hunit hopen hknown _ ih =>
    obtain ⟨hsub, hclosed', hpassed⟩ := ih (List.forall_mem_cons.1 hnames).2 hclosed
    exact ⟨hsub, hclosed', List.forall_mem_cons.2
      ⟨.of_unit hunit (.inr ⟨_, hsub (mem_of_lookup hknown)⟩), hpassed⟩⟩
  | inside hunit hopen hnew hmodules _ _ ihinner ih =>
    obtain ⟨hreach, hreaches⟩ := List.forall_mem_cons.1 hnames
    have hmeets : env.Meets u _ := .named hreach hunit
    obtain ⟨hsub₁, hclosed₁, hpassed₁⟩ :=
      ihinner (fun name hname => hmeets.reaches (.own hname)) hclosed.of_open
    obtain ⟨hsub, hclosed', hpassed⟩ := ih hreaches (hclosed₁.close hmeets rfl hpassed₁)
    refine ⟨fun e he => hsub (List.mem_cons_of_mem _ (hsub₁ he)), hclosed',
      List.forall_mem_cons.2 ⟨.of_unit hunit (.inr ⟨_, hsub (List.mem_cons_self ..)⟩), hpassed⟩⟩

/-- **When no unit is open any more, everything that is reachable has been gone through.** -/
theorem Closed.passed (h : env.Closed u [] found) (happart : env.TellsApart u)
    (hv : env.Meets u v) (hfound : ∃ p, (v.identity, p) ∈ found) (hreach : env.Reaches v name) :
    env.Passed [] found name := by
  -- a unit of the same identity has been found out about, and it has the same names
  have hsame : ∀ {v : WorkUnit}, env.Meets u v → (∃ p, (v.identity, p) ∈ found) →
      ∀ name ∈ v.freeVars.toList, env.Passed [] found name := by
    rintro v hv ⟨p, hp⟩ name hname
    obtain ⟨v', hv', hidentity, hnames⟩ := h _ hp
    have houtline := happart v' v hv' hv hidentity
    have heq : v'.freeVars.toList = v.freeVars.toList := congrArg Outline.names houtline
    exact hnames name (heq ▸ hname)
  induction hreach with
  | own hown => exact hsame hv hfound _ hown
  | through hvia hunit _ ih =>
    have hsettled := (hsame hv hfound _ hvia).settled _ hunit
    exact ih (.named (hv.reaches (.own hvia)) hunit) (hsettled.resolve_left List.not_mem_nil)

/-- So a walk in which no unit was open goes through everything that is reachable. -/
theorem Walk.passed (h : env.Walk pinned [] [] u.freeVars.toList entries found)
    (happart : env.TellsApart u) (hreach : env.Reaches u name) : env.Passed [] found name := by
  obtain ⟨-, hclosed, hpassed⟩ := h.closed (fun name hname => .own hname)
    (fun e he => absurd he List.not_mem_nil : env.Closed u [] [])
  cases hreach with
  | own hown => exact hpassed name hown
  | through hvia hunit hreach =>
    have hsettled := (hpassed _ hvia).settled _ hunit
    exact hclosed.passed happart (.named (.own hvia) hunit)
      (hsettled.resolve_left List.not_mem_nil) hreach

/-! ## §6. What a walk writes can be told apart. -/

/-- Whatever is found of a module is the digest of some message. -/
theorem moduleDigest_isDigest {m : ModuleRef} {seen seen' : List String}
    (h : moduleDigest pinned m seen = .ok (d, seen')) : ∃ message, d = .ofMessage message := by
  obtain ⟨name, localName, version, origin, imports⟩ := m
  unfold moduleDigest at h
  -- each of its three forms is the digest of fields
  split at h
  · split at h
    · cases h
    · dsimp only at h
      split at h
      · exact ⟨_, (Prod.mk.inj (Except.ok.inj h)).1.symm⟩
      · split at h
        · cases h
        · exact ⟨_, (Prod.mk.inj (Except.ok.inj h)).1.symm⟩
  · exact ⟨_, (Prod.mk.inj (Except.ok.inj h)).1.symm⟩

/-- What is found of several modules is found of each in turn. -/
theorem moduleDigests_cons_eq_ok {m : ModuleRef} {rest : List ModuleRef}
    {seen seen' : List String} {ds : List Digest}
    (h : moduleDigests pinned (m :: rest) seen = .ok (ds, seen')) :
    ∃ d seen₁ ds', ds = d :: ds' ∧ moduleDigest pinned m seen = .ok (d, seen₁) ∧
      moduleDigests pinned rest seen₁ = .ok (ds', seen') := by
  unfold moduleDigests at h
  split at h
  · cases h
  case h_2 d seen₁ hfirst =>
    split at h
    · cases h
    case h_2 ds' seen₂ hrest =>
      obtain ⟨rfl, rfl⟩ := Prod.mk.inj (Except.ok.inj h)
      exact ⟨d, seen₁, ds', rfl, hfirst, hrest⟩

theorem moduleDigests_isDigest {ms : List ModuleRef} {seen seen' : List String}
    {ds : List Digest} (h : moduleDigests pinned ms seen = .ok (ds, seen')) :
    ∀ d ∈ ds, ∃ message, d = .ofMessage message := by
  induction ms generalizing seen ds with
  | nil =>
    unfold moduleDigests at h
    obtain ⟨rfl, -⟩ := Prod.mk.inj (Except.ok.inj h)
    exact fun d hd => absurd hd List.not_mem_nil
  | cons m rest ih =>
    obtain ⟨d, seen₁, ds', rfl, hfirst, hrest⟩ := moduleDigests_cons_eq_ok h
    exact List.forall_mem_cons.2 ⟨moduleDigest_isDigest hfirst, ih hrest⟩

/-- Only digests of messages have been found. -/
def AreMessages (found : Findings) : Prop :=
  ∀ key d, (key, .pure d) ∈ found → ∃ message, d = .ofMessage message

theorem AreMessages.cons {key d : Digest} (h : AreMessages found)
    (hd : ∃ message, d = .ofMessage message) : AreMessages ((key, .pure d) :: found) := by
  intro key' d' hmem
  rcases List.mem_cons.1 hmem with heq | hmem
  · obtain rfl := Purity.pure.inj (Prod.mk.inj heq).2
    exact hd
  · exact h key' d' hmem

theorem plain?_regular {name : String} {f : Field} (h : env.plain? pinned name = some f) :
    (Entry.plain f).IsRegular := by
  unfold plain? at h
  cases hget : env.bindings.get? name with
  | none =>
    simp only [hget, Option.some.injEq] at h
    subst h
    exact ⟨Field.isRegular_of_short (by decide) (by decide) (by decide), by decide⟩
  | some r =>
    cases r with
    | value v =>
      simp only [hget, Option.some.injEq] at h
      subst h
      exact ⟨Field.isRegular_ofDigest (by decide) (by decide) _, (by decide : "value" ≠ "unit")⟩
    | module m =>
      simp only [hget] at h
      obtain ⟨⟨d, seen⟩, hd, rfl⟩ := Option.map_eq_some_iff.1 h
      cases hmodule : moduleDigest pinned m [] with
      | error e => simp [hmodule, Except.toOption] at hd
      | ok hashed =>
        obtain rfl : hashed = (d, seen) := by simpa [hmodule, Except.toOption] using hd
        obtain ⟨message, rfl⟩ := moduleDigest_isDigest hmodule
        exact ⟨Field.isRegular_ofDigest (by decide) (by decide) _,
          (by decide : "module" ≠ "unit")⟩
    | unit w => simp [hget] at h
    | impure reason => simp [hget] at h

/-- What a walk writes beside names can be told from what follows it. -/
theorem Walk.regular (h : env.Walk pinned opened found names entries found')
    (hfound : AreMessages found) : AreMessages found' ∧ ∀ e ∈ entries, e.2.IsRegular := by
  induction h with
  | nil => exact ⟨hfound, by simp⟩
  | plain hplain _ ih =>
    obtain ⟨hfound', hentries⟩ := ih hfound
    exact ⟨hfound', List.forall_mem_cons.2 ⟨plain?_regular hplain, hentries⟩⟩
  | again hunit hopen _ ih =>
    obtain ⟨hfound', hentries⟩ := ih hfound
    exact ⟨hfound', List.forall_mem_cons.2 ⟨⟨_, rfl⟩, hentries⟩⟩
  | known hunit hopen hknown _ ih =>
    obtain ⟨hfound', hentries⟩ := ih hfound
    exact ⟨hfound', List.forall_mem_cons.2 ⟨hfound _ _ (mem_of_lookup hknown), hentries⟩⟩
  | inside hunit hopen hnew hmodules _ _ ihinner ih =>
    obtain ⟨hfound', hentries⟩ := ih ((ihinner hfound).1.cons ⟨_, rfl⟩)
    exact ⟨hfound', List.forall_mem_cons.2 ⟨⟨_, rfl⟩, hentries⟩⟩

/-- It is written beside the names that are walked through. -/
theorem Walk.listed (h : env.Walk pinned opened found names entries found') :
    entries.map Prod.fst = names := by
  induction h with
  | nil => rfl
  | _ => simp_all

/-- So the body of a unit whose names are walked through is regular. -/
theorem Walk.body_regular (h : env.Walk pinned opened found u.freeVars.toList entries found')
    (hfound : AreMessages found) (hu : u.IsRegular) {modules : List Digest} {seen : List String}
    (hmodules : moduleDigests pinned u.modules [] = .ok (modules, seen)) :
    Body.IsRegular ⟨u.normalSource, modules, entries⟩ where
  source := hu.source
  modules := moduleDigests_isDigest hmodules
  entries e he := by
    refine ⟨hu.names e.1 ?_, (h.regular hfound).2 e he⟩
    rw [← h.listed]
    exact List.mem_map_of_mem he

end Environment

end Notebook
