/-
  Notebook.Proofs.Identity.Exactness — a unit's identity tells everything it reaches, and only that.

  The search that hashes a unit goes through the units that its names stand for.  A unit that is
  being hashed already is not opened again, and of one that is finished the digest is used again, so
  neither looks into the environment a second time.  Still nothing is lost: each unit that the root
  reaches is opened once, and its digest is inside the digest of the unit that opened it.

  As the units that are open at one time differ in their identities, the bound on their number is
  never met, and what the search finds does not depend on the size of the environment.

  Main results:
    * `Environment.purityAt_visited` — what one visit of the search finds,
    * `Environment.purity_covers` — the content of a unit covers the names that it reaches,
    * `Environment.purityAt_congr` — the search depends on what reachable names stand for only,
    * `Environment.identify_exact` — equal identities, equal surroundings.
-/
import Mathlib.Data.List.Perm.Subperm
import Notebook.Proofs.Identity.Coverage

namespace Notebook

variable [HashFunction]

namespace Environment

variable {env env' : Environment} {root : Digest} {depth : Nat} {opened : List Digest}
  {u : WorkUnit} {found found' : Findings} {d : Digest}

/-! ## §1. The bound on open units is never met. -/

/-- The identities of the units that may be opened: the root, and what names stand for. -/
def openable (env : Environment) (root : Digest) : List Digest :=
  root :: env.bindings.values.filterMap fun
    | .unit w => some w.identity
    | _ => none

/-- Open units differ, may be opened, and leave room for all others. -/
structure HasRoom (env : Environment) (root : Digest) (depth : Nat) (opened : List Digest) :
    Prop where
  distinct : opened.Nodup
  openable : opened ⊆ env.openable root
  room : (env.openable root).length < depth + opened.length

theorem identity_mem_openable {name : String} {w : WorkUnit}
    (hw : env.bindings.get? name = some (.unit w)) : w.identity ∈ env.openable root := by
  refine List.mem_cons_of_mem _ (List.mem_filterMap.2 ⟨.unit w, ?_, rfl⟩)
  exact List.mem_map.2 ⟨_, (Table.get?_eq_some_iff _).1 hw, rfl⟩

/-- Where there is room, another unit may be opened. -/
theorem HasRoom.depth_ne_zero (h : env.HasRoom root depth opened) : depth ≠ 0 := by
  rintro rfl
  have hlength := (h.distinct.subperm h.openable).length_le
  have hroom := h.room
  omega

/-- After one has been opened there is room again. -/
theorem HasRoom.opens {key : Digest} (h : env.HasRoom root (depth + 1) opened)
    (hkey : key ∈ env.openable root) (hnew : key ∉ opened) :
    env.HasRoom root depth (key :: opened) where
  distinct := List.nodup_cons.2 ⟨hnew, h.distinct⟩
  openable := List.cons_subset.2 ⟨hkey, h.openable⟩
  room := by
    have hroom := h.room
    rw [List.length_cons]
    omega

/-- In the beginning there is room. -/
theorem hasRoom_maxOpen (env : Environment) (root : Digest) :
    env.HasRoom root env.maxOpen [] where
  distinct := List.nodup_nil
  openable := List.nil_subset _
  room := by
    have hlength : (env.openable root).length ≤ env.bindings.size + 1 := by
      refine Nat.succ_le_succ (le_trans (List.length_filterMap_le _ _) ?_)
      exact le_of_eq (List.length_map _)
    unfold maxOpen
    rw [List.length_nil]
    omega

/-! ## §2. What the search finds. -/

/-- Units that a name stands for are being hashed, or have been. -/
def Settled (env : Environment) (opened : List Digest) (found : Findings) (name : String) : Prop :=
  ∀ w, env.bindings.get? name = some (.unit w) →
    w.identity ∈ opened ∨ ∃ p, (w.identity, p) ∈ found

/-- A finding: a unit with its digest, which covers its names, and the names are settled. -/
structure Finding (env : Environment) (opened : List Digest) (found : Findings) (key : Digest)
    (v : WorkUnit) (d : Digest) : Prop where
  identity : v.identity = key
  regular : v.IsRegular
  hashes : env.Hashes d v
  covers : ∀ name ∈ v.freeVars.toList, d.Covers name
  settled : ∀ name ∈ v.freeVars.toList, env.Settled opened found name

/-- Everything that has been found out about units is a finding. -/
def Sound (env : Environment) (opened : List Digest) (found : Findings) : Prop :=
  ∀ e ∈ found, ∃ v d, e.2 = .pure d ∧ env.Finding opened found e.1 v d

/-- What a visit adds to the findings lies inside something. -/
def Adds (found found' : Findings) (inside : String → Prop) : Prop :=
  ∀ key d, (key, .pure d) ∈ found' → (key, .pure d) ∉ found → ∀ name, d.Covers name → inside name

/-- A visit to a unit: it is hashed, what was found stays, and what is found besides lies inside its
digest. -/
structure Visited (env : Environment) (opened : List Digest) (u : WorkUnit) (found : Findings)
    (d : Digest) (found' : Findings) : Prop where
  hashes : env.Hashes d u
  kept : found ⊆ found'
  sound : env.Sound opened found'
  adds : Adds found found' d.Covers
  settled : u.identity ∈ opened ∨ (u.identity, .pure d) ∈ found'

/-- A walk through names: what they stand for is told, and what is found besides lies inside the
digests of units among it. -/
structure Walked (env : Environment) (opened : List Digest) (names : List String)
    (found : Findings) (entries : List (String × Told)) (found' : Findings) : Prop where
  listed : entries.map Prod.fst = names
  regular : ∀ e ∈ entries, IsShort e.1 ∧ e.2.IsRegular
  tells : ∀ e ∈ entries, env.Tells e.1 e.2
  hashes : ∀ name inner w, (name, .unit inner) ∈ entries →
    env.bindings.get? name = some (.unit w) → env.Hashes inner w
  kept : found ⊆ found'
  sound : env.Sound opened found'
  adds : Adds found found' fun name => ∃ via inner, (via, .unit inner) ∈ entries ∧ inner.Covers name
  settled : ∀ name ∈ names, env.Settled opened found' name

theorem Settled.mono {name : String} (h : env.Settled opened found name) (hsub : found ⊆ found') :
    env.Settled opened found' name := by
  intro w hw
  rcases h w hw with hopen | ⟨p, hp⟩
  · exact .inl hopen
  · exact .inr ⟨p, hsub hp⟩

/-- Units that have been hashed since they were open are settled. -/
theorem Settled.close {name : String} {key : Digest} {p : Purity}
    (h : env.Settled (key :: opened) found name) :
    env.Settled opened ((key, p) :: found) name := by
  intro w hw
  rcases h w hw with hopen | ⟨q, hq⟩
  · rcases List.mem_cons.1 hopen with heq | hopen
    · exact .inr ⟨p, heq ▸ List.mem_cons_self ..⟩
    · exact .inl hopen
  · exact .inr ⟨q, List.mem_cons_of_mem _ hq⟩

theorem Settled.of_open {name : String} {key : Digest} (h : env.Settled opened found name) :
    env.Settled (key :: opened) found name := by
  intro w hw
  rcases h w hw with hopen | hfound
  · exact .inl (List.mem_cons_of_mem _ hopen)
  · exact .inr hfound

/-- Findings stay sound when a unit is opened. -/
theorem Sound.of_open {key : Digest} (h : env.Sound opened found) :
    env.Sound (key :: opened) found := by
  intro e he
  obtain ⟨v, d, hd, hfinding⟩ := h e he
  exact ⟨v, d, hd, { hfinding with
    settled := fun name hname => (hfinding.settled name hname).of_open }⟩

/-- They stay sound when it is done and its digest noted. -/
theorem Sound.close {key : Digest} (h : env.Sound (key :: opened) found)
    (hidentity : u.identity = key) (hu : u.IsRegular) (hhashes : env.Hashes d u)
    (hcovers : ∀ name ∈ u.freeVars.toList, d.Covers name)
    (hsettled : ∀ name ∈ u.freeVars.toList, env.Settled (key :: opened) found name) :
    env.Sound opened ((key, .pure d) :: found) := by
  intro e he
  rcases List.mem_cons.1 he with rfl | he
  · exact ⟨u, d, rfl, hidentity, hu, hhashes, hcovers,
      fun name hname => (hsettled name hname).close⟩
  · obtain ⟨v, d', hd', hfinding⟩ := h e he
    exact ⟨v, d', hd', { hfinding with
      settled := fun name hname => (hfinding.settled name hname).close }⟩

theorem Adds.refl (found : Findings) (inside : String → Prop) : Adds found found inside :=
  fun _ _ hnew hold => absurd hnew hold

theorem Adds.mono {inside inside' : String → Prop} (h : Adds found found' inside)
    (himp : ∀ name, inside name → inside' name) : Adds found found' inside' :=
  fun key d hnew hold name hcovers => himp name (h key d hnew hold name hcovers)

theorem Adds.trans {found₁ found₂ : Findings} {inside : String → Prop}
    (h : Adds found found₁ inside) (h' : Adds found₁ found₂ inside) : Adds found found₂ inside := by
  intro key d hnew hold name hcovers
  by_cases hmid : (key, Purity.pure d) ∈ found₁
  · exact h key d hmid hold name hcovers
  · exact h' key d hnew hmid name hcovers

/-! ## §3. One walk and one visit. -/

theorem Walked.nil (hsound : env.Sound opened found) : env.Walked opened [] found [] found where
  listed := rfl
  regular := by simp
  tells := by simp
  hashes := by simp
  kept := List.Subset.refl _
  sound := hsound
  adds := Adds.refl _ _
  settled := by simp

/-- A walk through one name, and then through others. -/
theorem Walked.cons {name : String} {names : List String} {told : Told}
    {entries : List (String × Told)} {found₁ found₂ : Findings}
    (h : env.Walked opened [name] found [(name, told)] found₁)
    (hrest : env.Walked opened names found₁ entries found₂) :
    env.Walked opened (name :: names) found ((name, told) :: entries) found₂ where
  listed := congrArg (name :: ·) hrest.listed
  regular := List.forall_mem_cons.2 ⟨h.regular _ (List.mem_singleton_self _), hrest.regular⟩
  tells := List.forall_mem_cons.2 ⟨h.tells _ (List.mem_singleton_self _), hrest.tells⟩
  hashes := by
    intro via inner w hmem hw
    rcases List.mem_cons.1 hmem with heq | hmem
    · exact h.hashes via inner w (List.mem_singleton.2 heq) hw
    · exact hrest.hashes via inner w hmem hw
  kept := List.Subset.trans h.kept hrest.kept
  sound := hrest.sound
  adds := by
    refine (h.adds.mono ?_).trans (hrest.adds.mono ?_)
    · rintro covered ⟨via, inner, hmem, hcovers⟩
      exact ⟨via, inner, List.mem_cons.2 (.inl (List.mem_singleton.1 hmem)), hcovers⟩
    · rintro covered ⟨via, inner, hmem, hcovers⟩
      exact ⟨via, inner, List.mem_cons_of_mem _ hmem, hcovers⟩
  settled := List.forall_mem_cons.2
    ⟨(h.settled name (List.mem_singleton_self _)).mono hrest.kept, hrest.settled⟩

/-- A name that stands for no unit finds out nothing about units. -/
theorem Walked.plain {name : String} {told : Told} (hsound : env.Sound opened found)
    (hname : IsShort name) (htold : told.IsRegular) (htells : env.Tells name told)
    (hplain : ∀ w, env.bindings.get? name ≠ some (.unit w)) :
    env.Walked opened [name] found [(name, told)] found where
  listed := rfl
  regular := by simp [hname, htold]
  tells := by simpa using htells
  hashes := fun via inner w hmem hw => by
    obtain ⟨rfl, -⟩ := Prod.mk.inj (List.mem_singleton.1 hmem)
    exact absurd hw (hplain w)
  kept := List.Subset.refl _
  sound := hsound
  adds := Adds.refl _ _
  settled := fun via hvia w hw => by
    obtain rfl := List.mem_singleton.1 hvia
    exact absurd hw (hplain w)

/-- A name that stands for a unit finds out what a visit to the unit does. -/
theorem Walked.visit {name : String} {w : WorkUnit} (hname : IsShort name)
    (hw : env.bindings.get? name = some (.unit w)) (h : env.Visited opened w found d found') :
    env.Walked opened [name] found [(name, .unit d)] found' where
  listed := rfl
  regular := by simpa [hname, Told.IsRegular] using h.hashes.isDigest
  tells := by simpa using ⟨w, hw⟩
  hashes := fun via inner w' hmem hw' => by
    obtain ⟨rfl, htold⟩ := Prod.mk.inj (List.mem_singleton.1 hmem)
    obtain rfl := Told.unit.inj htold
    obtain rfl := Resolved.unit.inj (Option.some.inj (hw.symm.trans hw'))
    exact h.hashes
  kept := h.kept
  sound := h.sound
  adds := h.adds.mono fun covered hcovers => ⟨name, d, List.mem_singleton_self _, hcovers⟩
  settled := fun via hvia w' hw' => by
    obtain rfl := List.mem_singleton.1 hvia
    obtain rfl := Resolved.unit.inj (Option.some.inj (hw.symm.trans hw'))
    exact h.settled.imp_right fun hmem => ⟨_, hmem⟩

/-! ## §4. The search. -/

/-- Without pinning a module is known by its name. -/
theorem moduleDigest_unpinned (m : ModuleRef) (seen : List String) :
    moduleDigest false m seen = .ok (nameDigest m.name, seen) := by
  obtain ⟨name, localName, version, origin, imports⟩ := m
  unfold moduleDigest
  simp [nameDigest]

theorem moduleDigests_unpinned (modules : List ModuleRef) (seen : List String) :
    moduleDigests false modules seen = .ok (modules.map fun m => nameDigest m.name, seen) := by
  induction modules with
  | nil => rfl
  | cons m rest ih =>
    unfold moduleDigests
    rw [moduleDigest_unpinned]
    dsimp only
    rw [ih]
    rfl

/-- What the search does with one name that stands for nothing impure. -/
theorem contributions_cons_walked (unit : String) {name : String}
    (inner : WorkUnit → Findings → Except Error (Purity × Findings))
    (hsound : env.Sound opened found) (hname : IsShort name)
    (hregular : ∀ r, env.bindings.get? name = some r → r.IsRegular)
    (hpure : ∀ reason, env.bindings.get? name ≠ some (.impure reason))
    (hinner : ∀ w, env.bindings.get? name = some (.unit w) →
      ∃ d found', inner w found = .ok (.pure d, found') ∧ env.Visited opened w found d found') :
    ∃ told found₁, env.Walked opened [name] found [(name, told)] found₁ ∧
      ∀ rest fields found₂,
        contributions env false unit inner rest found₁ = .ok (.fields fields, found₂) →
        contributions env false unit inner (name :: rest) found =
          .ok (.fields (.ofText "var" name :: told.field :: fields), found₂) := by
  cases hget : env.bindings.get? name with
  | none =>
    refine ⟨.unbound, found, .plain hsound hname trivial hget (by simp [hget]), ?_⟩
    intro rest fields found₂ hrest
    simp only [contributions, hget, hrest]
    rfl
  | some r =>
    have hr := hregular r hget
    cases r with
    | value v =>
      refine ⟨.value v, found, .plain hsound hname hr hget (by simp [hget]), ?_⟩
      intro rest fields found₂ hrest
      simp only [contributions, hget, hrest]
      rfl
    | module m =>
      refine ⟨.module m.name, found, .plain hsound hname hr ⟨m, hget, rfl⟩ (by simp [hget]), ?_⟩
      intro rest fields found₂ hrest
      simp only [contributions, hget, moduleDigest_unpinned, hrest]
      rfl
    | unit w =>
      obtain ⟨d, found₁, hvisit, hvisited⟩ := hinner w hget
      refine ⟨.unit d, found₁, .visit hname hget hvisited, ?_⟩
      intro rest fields found₂ hrest
      simp only [contributions, hget, hvisit, hrest]
      rfl
    | impure reason => exact absurd hget (hpure reason)

/-- The search walks through the names of a unit that reaches nothing impure. -/
theorem contributions_walked (unit : String) {names : List String}
    (inner : WorkUnit → Findings → Except Error (Purity × Findings))
    (hsound : env.Sound opened found) (hnames : ∀ name ∈ names, IsShort name)
    (hregular : ∀ name ∈ names, ∀ r, env.bindings.get? name = some r → r.IsRegular)
    (hpure : ∀ name ∈ names, ∀ reason, env.bindings.get? name ≠ some (.impure reason))
    (hinner : ∀ name ∈ names, ∀ w, env.bindings.get? name = some (.unit w) →
      ∀ found, env.Sound opened found →
        ∃ d found', inner w found = .ok (.pure d, found') ∧ env.Visited opened w found d found') :
    ∃ entries found', env.Walked opened names found entries found' ∧
      contributions env false unit inner names found =
        .ok (.fields (Content.entryFields entries), found') := by
  induction names generalizing found with
  | nil => exact ⟨[], found, .nil hsound, rfl⟩
  | cons name rest ih =>
    have hhere : name ∈ name :: rest := List.mem_cons_self ..
    have hthere : ∀ a ∈ rest, a ∈ name :: rest := fun a => List.mem_cons_of_mem name
    obtain ⟨told, found₁, hwalked, hcons⟩ := contributions_cons_walked unit inner hsound
      (hnames name hhere) (hregular name hhere) (hpure name hhere)
      fun w hw => hinner name hhere w hw found hsound
    obtain ⟨entries, found₂, hrest, heq⟩ := ih hwalked.sound (fun a ha => hnames a (hthere a ha))
      (fun a ha => hregular a (hthere a ha)) (fun a ha => hpure a (hthere a ha))
      fun a ha => hinner a (hthere a ha)
    exact ⟨(name, told) :: entries, found₂, hwalked.cons hrest, hcons rest _ found₂ heq⟩

/-- The content of a unit whose names have been walked through. -/
theorem Walked.visited {key : Digest} {entries : List (String × Told)}
    (h : env.Walked (key :: opened) u.freeVars.toList found entries found')
    (hidentity : u.identity = key) (hu : u.IsRegular) :
    env.Visited opened u found
      (Content.digest ⟨u.normalSource, u.modules.map (·.name), entries⟩)
      ((key, .pure (Content.digest ⟨u.normalSource, u.modules.map (·.name), entries⟩)) ::
        found') := by
  let c : Content := ⟨u.normalSource, u.modules.map (·.name), entries⟩
  have hc : c.IsRegular := by
    refine ⟨hu.source, fun name hname => ?_, h.regular⟩
    obtain ⟨m, hm, rfl⟩ := List.mem_map.1 hname
    exact (hu.modules m hm).1
  have houtline : c.outline = u.outline := by
    unfold Content.outline WorkUnit.outline Content.names
    rw [h.listed]
  have hhashes : env.Hashes c.digest u := .content c hc rfl houtline h.tells h.hashes
  have hcovers : ∀ name ∈ u.freeVars.toList, c.digest.Covers name := by
    intro name hname
    exact .own c hc rfl (h.listed.symm ▸ hname : name ∈ c.entries.map Prod.fst)
  refine ⟨hhashes, fun e he => List.mem_cons_of_mem _ (h.kept he),
    h.sound.close hidentity hu hhashes hcovers h.settled, ?_,
    .inr (hidentity ▸ List.mem_cons_self ..)⟩
  intro k d hnew hold name hd
  rcases List.mem_cons.1 hnew with heq | hnew
  · obtain rfl := Purity.pure.inj (Prod.mk.inj heq).2
    exact hd
  -- what was found on the walk lies inside the digest of a unit among the names
  · obtain ⟨via, inner, hvia, hinside⟩ := h.adds k d hnew hold name hd
    exact .inner c hc rfl hvia hinside

/-- **What one visit of the search finds**, when the unit reaches nothing impure. -/
theorem purityAt_visited (hash : HashFunction.CollisionFree) (hpure : env.IsPureFrom u)
    (hroom : env.HasRoom root depth opened) (hkey : u.identity ∈ env.openable root)
    (hsound : env.Sound opened found) :
    ∃ d found', purityAt env false depth opened u found = .ok (.pure d, found') ∧
      env.Visited opened u found d found' := by
  induction depth generalizing opened u found with
  | zero => exact absurd rfl hroom.depth_ne_zero
  | succ depth ih =>
    unfold purityAt
    by_cases hopen : u.identity ∈ opened
    · -- the unit is being hashed already
      refine ⟨recursionDigest u.identity, found, if_pos (List.contains_iff_mem.2 hopen), ?_⟩
      exact ⟨.again hpure.unit rfl, List.Subset.refl _, hsound, Adds.refl _ _, .inl hopen⟩
    · simp only [List.contains_iff_mem.not.2 hopen, if_false, Bool.false_eq_true]
      cases hlookup : found.lookup u.identity with
      | some known =>
        -- it has been hashed before
        have hmem : (u.identity, known) ∈ found := by
          obtain ⟨before, after, rfl, -⟩ := List.lookup_eq_some_iff.1 hlookup
          exact List.mem_append_right _ (List.mem_cons_self ..)
        obtain ⟨v, d, rfl, hfinding⟩ := hsound _ hmem
        refine ⟨d, found, rfl, ?_, List.Subset.refl _, hsound, Adds.refl _ _, .inr hmem⟩
        exact hfinding.hashes.congr hash hfinding.regular hpure.unit hfinding.identity
      | none =>
        -- it is opened, and its names are walked through
        have hnext := hroom.opens hkey hopen
        obtain ⟨entries, found', hwalked, hwalk⟩ := contributions_walked u.name
          (purityAt env false depth (u.identity :: opened)) hsound.of_open hpure.unit.names
          (fun name hname r => hpure.regular name r (.own hname))
          (fun name hname reason => hpure.pure name reason (.own hname))
          fun name hname w hw found hsound =>
            ih (hpure.through hname hw) hnext (identity_mem_openable hw) hsound
        refine ⟨_, _, ?_, hwalked.visited rfl hpure.unit⟩
        simp only [moduleDigests_unpinned, hwalk]
        simp [Content.digest, Content.fields, Function.comp_def]

/-! ## §5. The identity of a unit covers the names that it reaches. -/

/-- When no unit is open any more, what has been found out about a unit covers all that the unit
reaches. -/
theorem Sound.covers (hash : HashFunction.CollisionFree) {inside : String → Prop}
    (hsound : env.Sound [] found) (hinside : Adds [] found inside) {v : WorkUnit} {name : String}
    (hreach : env.Reaches v name) (hpure : env.IsPureFrom v)
    (hfound : ∃ p, (v.identity, p) ∈ found) : inside name := by
  -- a unit of the same identity has been hashed, and it has the same names
  have hsame : ∀ {v : WorkUnit}, env.IsPureFrom v → (∃ p, (v.identity, p) ∈ found) →
      ∃ v' d, (v.identity, .pure d) ∈ found ∧ env.Finding [] found v.identity v' d ∧
        v'.freeVars.toList = v.freeVars.toList := by
    rintro v hpure ⟨p, hp⟩
    obtain ⟨v', d, rfl, hfinding⟩ := hsound _ hp
    exact ⟨v', d, hp, hfinding, congrArg Outline.names
      (v'.outline_eq_of_identity hash hfinding.regular hpure.unit hfinding.identity)⟩
  induction hreach with
  | own hown =>
    obtain ⟨v', d, hmem, hfinding, hnames⟩ := hsame hpure hfound
    exact hinside _ d hmem List.not_mem_nil _ (hfinding.covers _ (hnames ▸ hown))
  | through hvia hunit _ ih =>
    obtain ⟨v', d, hmem, hfinding, hnames⟩ := hsame hpure hfound
    have hsettled := hfinding.settled _ (hnames ▸ hvia) _ hunit
    exact ih (hpure.through hvia hunit) (hsettled.resolve_left List.not_mem_nil)

/-- A unit that reaches nothing impure has a content, whose digest covers all that the unit
reaches. -/
theorem purity_covers (hash : HashFunction.CollisionFree) (hpure : env.IsPureFrom u) :
    ∃ d, purity env false u = .ok (.pure d) ∧ env.Hashes d u ∧
      ∀ name, env.Reaches u name → d.Covers name := by
  obtain ⟨d, found, hsearch, hvisited⟩ := purityAt_visited hash hpure
    (env.hasRoom_maxOpen u.identity) (List.mem_cons_self ..)
    (fun e he => absurd he List.not_mem_nil : env.Sound [] [])
  refine ⟨d, ?_, hvisited.hashes, ?_⟩
  · unfold purity
    rw [hsearch]
    rfl
  · intro name hreach
    exact hvisited.sound.covers hash hvisited.adds hreach hpure
      ⟨_, hvisited.settled.resolve_left List.not_mem_nil⟩

/-! ## §6. The search sees reachable names only. -/

theorem contributions_congr {pinned : Bool} {unit : String} {names : List String}
    {inner inner' : WorkUnit → Findings → Except Error (Purity × Findings)}
    (hget : ∀ name ∈ names, env.bindings.get? name = env'.bindings.get? name)
    (hinner : ∀ name ∈ names, ∀ w, env.bindings.get? name = some (.unit w) → inner w = inner' w) :
    contributions env pinned unit inner names found =
      contributions env' pinned unit inner' names found := by
  induction names generalizing found with
  | nil => rfl
  | cons name rest ih =>
    have hrest : ∀ found, contributions env pinned unit inner rest found =
        contributions env' pinned unit inner' rest found := fun found =>
      ih (fun a ha => hget a (List.mem_cons_of_mem _ ha))
        fun a ha => hinner a (List.mem_cons_of_mem _ ha)
    have hhere := hget name (List.mem_cons_self ..)
    have hunit := hinner name (List.mem_cons_self ..)
    unfold contributions
    rw [← hhere]
    cases hr : env.bindings.get? name with
    | none => simp only [hrest]
    | some r =>
      cases r with
      | unit w => simp only [hrest, hunit w hr]
      | _ => simp only [hrest]

/-- **The search depends on what reachable names stand for only**: in environments of any size that
agree on them it finds the same. -/
theorem purityAt_congr {pinned : Bool} {depth' : Nat} (hroom : env.HasRoom root depth opened)
    (hroom' : env'.HasRoom root depth' opened) (hkey : u.identity ∈ env.openable root)
    (hkey' : u.identity ∈ env'.openable root)
    (hagree : ∀ name, env.Reaches u name → env.bindings.get? name = env'.bindings.get? name) :
    purityAt env pinned depth opened u found = purityAt env' pinned depth' opened u found := by
  induction depth generalizing depth' opened u found with
  | zero => exact absurd rfl hroom.depth_ne_zero
  | succ depth ih =>
    cases depth' with
    | zero => exact absurd rfl hroom'.depth_ne_zero
    | succ depth' =>
      unfold purityAt
      by_cases hopen : u.identity ∈ opened
      · simp only [List.contains_iff_mem.2 hopen, if_true]
      · have hinner : ∀ name ∈ u.freeVars.toList, ∀ w,
            env.bindings.get? name = some (.unit w) →
            purityAt env pinned depth (u.identity :: opened) w =
              purityAt env' pinned depth' (u.identity :: opened) w := by
          intro name hname w hw
          funext found
          have hw' : env'.bindings.get? name = some (.unit w) := hagree name (.own hname) ▸ hw
          exact ih (hroom.opens hkey hopen) (hroom'.opens hkey' hopen) (identity_mem_openable hw)
            (identity_mem_openable hw') fun a ha => hagree a (.through hname hw ha)
        simp only [contributions_congr (fun name hname => hagree name (.own hname)) hinner]

/-- So does the content of a unit. -/
theorem purity_congr (pinned : Bool)
    (hagree : ∀ name, env.Reaches u name → env.bindings.get? name = env'.bindings.get? name) :
    purity env pinned u = purity env' pinned u := by
  unfold purity
  rw [purityAt_congr (env.hasRoom_maxOpen u.identity) (env'.hasRoom_maxOpen u.identity)
    (List.mem_cons_self ..) (List.mem_cons_self ..) hagree]

/-! ## §7. Identities and surroundings. -/

/-- **Identities are exact.**  In two environments in which a unit reaches nothing impure it is
known by content.  If the digests are equal then it reaches the same names in both, and each stands
for the same; and if every name that it reaches stands for the same then the digests are equal,
whatever other names stand for. -/
theorem identify_exact (hash : HashFunction.CollisionFree) {env env' : Environment} {u : WorkUnit}
    (hpure : env.IsPureFrom u) (hpure' : env'.IsPureFrom u) :
    ∃ d d', identify env false u = .ok (.content d) ∧ identify env' false u = .ok (.content d') ∧
      (d = d' → ∀ name, (env.Reaches u name ↔ env'.Reaches u name) ∧
        (env.Reaches u name →
          Resolved.Alike (env.bindings.get? name) (env'.bindings.get? name))) ∧
      ((∀ name, env.Reaches u name → env.bindings.get? name = env'.bindings.get? name) →
        d = d') := by
  obtain ⟨d, hd, hhashes, hcovers⟩ := purity_covers hash hpure
  obtain ⟨d', hd', hhashes', hcovers'⟩ := purity_covers hash hpure'
  refine ⟨d, d', identify_of_pure hd, identify_of_pure hd', ?_, ?_⟩
  · rintro rfl name
    refine ⟨⟨?_, ?_⟩, ?_⟩
    · intro hreach
      exact hhashes'.reaches hash (hcovers name hreach)
    · intro hreach
      exact hhashes.reaches hash (hcovers' name hreach)
    · intro hreach
      exact Hashes.alike hash (hcovers name hreach) hhashes hhashes'
  · intro hagree
    have hsame := hd.symm.trans ((purity_congr false hagree).trans hd')
    exact Purity.pure.inj (Except.ok.inj hsame)

/-- A unit that calls `odd`. -/
def even : WorkUnit where
  name := "even"
  source := "n == 0 or odd(n - 1)"
  freeVars := .ofList ["odd"]

/-- A unit that calls `even` back, and reads a value. -/
def odd : WorkUnit where
  name := "odd"
  source := "n != 0 and even(n - 1, strict)"
  freeVars := .ofList ["even", "strict"]

/-- The two units, the value, and a name that neither reads. -/
def parity (strict : Bool) (clock : Resolved) : Environment where
  bindings := .ofList
    [("even", .unit even), ("odd", .unit odd), ("strict", .value (.bool strict)), ("clock", clock)]

omit [HashFunction] in
theorem parity_get? (strict : Bool) (clock : Resolved) :
    (parity strict clock).bindings.get? "even" = some (.unit even) ∧
      (parity strict clock).bindings.get? "odd" = some (.unit odd) ∧
      (parity strict clock).bindings.get? "strict" = some (.value (.bool strict)) := by
  simp [parity, Table.ofList]

omit [HashFunction] in
theorem parity_reaches {strict : Bool} {clock : Resolved} {u : WorkUnit} {name : String}
    (hreach : (parity strict clock).Reaches u name) (hu : u = even ∨ u = odd) :
    name ∈ ["even", "odd", "strict"] := by
  obtain ⟨heven, hodd, hstrict⟩ := parity_get? strict clock
  have hnames : ∀ u, u = even ∨ u = odd → ∀ name ∈ u.freeVars.toList,
      name ∈ ["even", "odd", "strict"] := by
    rintro u (rfl | rfl) <;> decide
  induction hreach with
  | own hown => exact hnames _ hu _ hown
  | @through _ w via _ hvia hunit _ ih =>
    have hw : via = "even" ∨ via = "odd" ∨ via = "strict" := by simpa using hnames _ hu _ hvia
    refine ih ?_
    rcases hw with rfl | rfl | rfl
    · exact .inl (Resolved.unit.inj (Option.some.inj (hunit.symm.trans heven)))
    · exact .inr (Resolved.unit.inj (Option.some.inj (hunit.symm.trans hodd)))
    · exact absurd (hunit.symm.trans hstrict) (by simp)

omit [HashFunction] in
/-- Nothing impure is reached, whatever the name stands for that neither reads. -/
theorem parity_isPureFrom (strict : Bool) (clock : Resolved) :
    (parity strict clock).IsPureFrom even := by
  obtain ⟨heven, hodd, hstrict⟩ := parity_get? strict clock
  have hregular : even.IsRegular ∧ odd.IsRegular :=
    ⟨⟨by decide, by decide, by decide⟩, ⟨by decide, by decide, by decide⟩⟩
  have hreached : ∀ name, (parity strict clock).Reaches even name →
      ∃ r, (parity strict clock).bindings.get? name = some r ∧ r.IsRegular ∧
        ∀ reason, r ≠ .impure reason := by
    intro name hreach
    have hname : name = "even" ∨ name = "odd" ∨ name = "strict" := by
      simpa using parity_reaches hreach (.inl rfl)
    rcases hname with rfl | rfl | rfl
    · exact ⟨_, heven, hregular.1, by simp⟩
    · exact ⟨_, hodd, hregular.2, by simp⟩
    · exact ⟨_, hstrict, rfl, by simp⟩
  refine ⟨hregular.1, fun name r hreach hget => ?_, fun name reason hreach hget => ?_⟩
  · obtain ⟨r', hget', hr', -⟩ := hreached name hreach
    obtain rfl := Option.some.inj (hget'.symm.trans hget)
    exact hr'
  · obtain ⟨r', hget', -, himpure⟩ := hreached name hreach
    exact himpure reason (Option.some.inj (hget'.symm.trans hget))

omit [HashFunction] in
/-- A value that only the other of two units reads tells their digests apart, and a name that
neither reads does not, though it stands for something impure. -/
theorem parity_exact :
    let _ := HashFunction.spelled
    HashFunction.CollisionFree ∧ (parity true (.value .null)).IsPureFrom even ∧
      (parity false (.value .null)).IsPureFrom even ∧
      (parity true (.impure "a clock")).IsPureFrom even ∧
      (∃ d d', identify (parity true (.value .null)) false even = .ok (.content d) ∧
        identify (parity false (.value .null)) false even = .ok (.content d') ∧ d ≠ d') ∧
      identify (parity true (.value .null)) false even =
        identify (parity true (.impure "a clock")) false even := by
  intro _
  have hash := HashFunction.spelled_collisionFree
  have hpure := parity_isPureFrom true (.value .null)
  have hpure' := parity_isPureFrom false (.value .null)
  have hclock := parity_isPureFrom true (.impure "a clock")
  obtain ⟨heven, hodd, hstrict⟩ := parity_get? true (.value .null)
  have hodd' := (parity_get? true (.impure "a clock")).2.1
  refine ⟨hash, hpure, hpure', hclock, ?_, ?_⟩
  · obtain ⟨d, d', hd, hd', hexact, -⟩ := identify_exact hash hpure hpure'
    refine ⟨d, d', hd, hd', fun heq => ?_⟩
    -- the value is reached through the other unit
    have hreach : (parity true (.value .null)).Reaches even "strict" :=
      .through (by decide) hodd (.own (by decide))
    have halike := (hexact heq "strict").2 hreach
    rw [hstrict, (parity_get? false (.value .null)).2.2] at halike
    cases halike
  · obtain ⟨d, d', hd, hd', -, hcongr⟩ := identify_exact hash hpure hclock
    rw [hd, hd', hcongr]
    intro name hreach
    have hname : name = "even" ∨ name = "odd" ∨ name = "strict" := by
      simpa using parity_reaches hreach (.inl rfl)
    rcases hname with rfl | rfl | rfl
    · rw [heven, (parity_get? true (.impure "a clock")).1]
    · rw [hodd, hodd']
    · rw [hstrict, (parity_get? true (.impure "a clock")).2.2]

end Environment

end Notebook
