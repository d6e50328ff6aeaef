/-
  Notebook.Proofs.Identity.Recursion — which units have to be noted while a unit is hashed.

  A unit recurs if it reaches a name that stands for a unit of its own outline.  What is found out
  about a unit that does not recur makes no difference to later visits: such a unit reaches nothing
  that is open, and all units below it that recur have been noted by then, so hashing it anew gives
  the same digest.  `Environment.Trail` is a walk that notes recurring units only and goes through
  all others again.  Every walk without pinning is such a trail, with the same things written beside
  its names.

  Which units are noted depends on structural identities, and these cover the aliases, versions,
  origins and imports of modules as written.  A trail looks at the identities of recurring units
  only.

  Main results:
    * `Environment.Trail.repeated` — what a trail writes, it writes again when it is followed again,
    * `Environment.Walk.trail` — every walk without pinning is a trail,
    * `Environment.trail_of_purity` — so a unit has its content by a trail.
-/
import Notebook.Proofs.Identity.Search

namespace Notebook

variable [HashFunction]

/-- What the content digest of a unit of this outline is made from, by what is written beside its
names. -/
def Outline.body (o : Outline) (entries : List (String × Entry)) : Body :=
  ⟨o.source, o.modules.map nameDigest, entries⟩

/-- It is regular when the source is short, and what is written beside the names is. -/
theorem Outline.body_regular {o : Outline} {entries : List (String × Entry)}
    (hsource : IsShort o.source) (hentries : ∀ e ∈ entries, IsShort e.1 ∧ e.2.IsRegular) :
    (o.body entries).IsRegular where
  source := hsource
  modules d hd := by
    obtain ⟨m, -, rfl⟩ := List.mem_map.1 hd
    exact ⟨_, rfl⟩
  entries := hentries

/-- Without pinning the modules count by their names. -/
theorem WorkUnit.body_unpinned {w : WorkUnit} {modules : List Digest} {seen : List String}
    (h : moduleDigests false w.modules [] = .ok (modules, seen))
    (entries : List (String × Entry)) :
    Body.mk w.normalSource modules entries = w.outline.body entries := by
  rw [Environment.moduleDigests_unpinned] at h
  obtain ⟨rfl, -⟩ := Prod.mk.inj (Except.ok.inj h)
  simp [Outline.body, WorkUnit.outline, Function.comp_def]

namespace Environment

variable {env : Environment} {opened opened' : List Digest} {u v w x : WorkUnit}
  {found found' booked booked' : Findings} {name via : String} {names : List String}
  {entries inner : List (String × Entry)}

/-! ## §1. Units that recur. -/

/-- The unit reaches a name that stands for a unit of its own outline. -/
def Recurs (env : Environment) (w : WorkUnit) : Prop :=
  ∃ name v, env.Reaches w name ∧ env.bindings.get? name = some (.unit v) ∧ v.outline = w.outline

omit [HashFunction] in
theorem Reaches.of_outline (h : env.Reaches v name) (houtline : v.outline = w.outline) :
    env.Reaches w name := by
  have hnames : v.freeVars.toList = w.freeVars.toList := congrArg Outline.names houtline
  cases h with
  | own hown => exact .own (hnames ▸ hown)
  | through hvia hunit hreach => exact .through (hnames ▸ hvia) hunit hreach

omit [HashFunction] in
/-- Whether a unit recurs depends on its outline. -/
theorem Recurs.of_outline (h : env.Recurs v) (houtline : v.outline = w.outline) :
    env.Recurs w := by
  obtain ⟨name, x, hreach, hunit, hx⟩ := h
  exact ⟨name, x, hreach.of_outline houtline, hunit, hx.trans houtline⟩

/-- The unit reaches no unit that is open. -/
def Clear (env : Environment) (opened : List Digest) (w : WorkUnit) : Prop :=
  ∀ name x, env.Reaches w name → env.bindings.get? name = some (.unit x) → x.identity ∉ opened

/-- Below a unit that does not recur the unit itself may be open, too. -/
theorem Clear.below (h : env.Clear opened w) (happart : env.TellsApart u) (hw : env.Meets u w)
    (hreach : env.Reaches w via) (hunit : env.bindings.get? via = some (.unit x))
    (hrecurs : ¬ env.Recurs x) : env.Clear (x.identity :: opened) x := by
  intro name y hname hy hopen
  have hx : env.Meets u x := .named (hw.reaches hreach) hunit
  rcases List.mem_cons.1 hopen with hidentity | hopen
  · have hy' : env.Meets u y := .named (hx.reaches hname) hy
    exact hrecurs ⟨name, y, hname, hy, happart y x hy' hx hidentity⟩
  · exact h name y (hreach.trans hunit hname) hy hopen

/-- The open units reach all of these names. -/
def Around (env : Environment) (u : WorkUnit) (opened : List Digest) (names : List String) : Prop :=
  ∀ key ∈ opened, ∃ v, env.Meets u v ∧ v.identity = key ∧ ∀ name ∈ names, env.Reaches v name

theorem Around.of_cons (h : env.Around u opened (name :: names)) : env.Around u opened names := by
  intro key hkey
  obtain ⟨v, hv, hidentity, hnames⟩ := h key hkey
  exact ⟨v, hv, hidentity, (List.forall_mem_cons.1 hnames).2⟩

/-- When another unit is opened, they reach its names. -/
theorem Around.opens (h : env.Around u opened (via :: names)) (hw : env.Meets u w)
    (hunit : env.bindings.get? via = some (.unit w)) :
    env.Around u (w.identity :: opened) w.freeVars.toList := by
  intro key hkey
  rcases List.mem_cons.1 hkey with rfl | hkey
  · exact ⟨w, hw, rfl, fun name hname => .own hname⟩
  · obtain ⟨v, hv, hidentity, hnames⟩ := h key hkey
    have hvia : env.Reaches v via := hnames via (List.mem_cons_self ..)
    exact ⟨v, hv, hidentity, fun name hname => hvia.trans hunit (.own hname)⟩

/-- A unit that is met while it is open recurs. -/
theorem Around.recurs (h : env.Around u opened (via :: names)) (happart : env.TellsApart u)
    (hw : env.Meets u w) (hunit : env.bindings.get? via = some (.unit w))
    (hopen : w.identity ∈ opened) : env.Recurs w := by
  obtain ⟨v, hv, hidentity, hnames⟩ := h _ hopen
  have houtline : v.outline = w.outline := happart v w hv hw hidentity
  exact ⟨via, w, (hnames via (List.mem_cons_self ..)).of_outline houtline, hunit, rfl⟩

/-- A unit that does not recur reaches nothing that is open. -/
theorem Around.clear (h : env.Around u opened (via :: names)) (happart : env.TellsApart u)
    (hw : env.Meets u w) (hunit : env.bindings.get? via = some (.unit w))
    (hrecurs : ¬ env.Recurs w) : env.Clear (w.identity :: opened) w := by
  intro name x hreach hx hopen
  have hx' : env.Meets u x := .named (hw.reaches hreach) hx
  rcases List.mem_cons.1 hopen with hidentity | hopen
  · exact hrecurs ⟨name, x, hreach, hx, happart x w hx' hw hidentity⟩
  -- from an open unit the way leads back
  · obtain ⟨v, hv, hidentity, hnames⟩ := h _ hopen
    have houtline : v.outline = x.outline := happart v x hv hx' hidentity
    have hback : env.Reaches x via := (hnames via (List.mem_cons_self ..)).of_outline houtline
    exact hrecurs ⟨via, w, hreach.trans hx hback, hunit, rfl⟩

/-! ## §2. Trails. -/

/-- A walk without pinning that notes only what it finds out about units that recur, and goes
through all others each time. -/
inductive Trail (env : Environment) : (opened : List Digest) → Findings → List String →
    List (String × Entry) → Findings → Prop
  | nil {opened : List Digest} {found : Findings} : Trail env opened found [] [] found
  | plain {opened : List Digest} {found found' : Findings} {name : String} {names : List String}
      {entries : List (String × Entry)} {f : Field} (hplain : env.plain? false name = some f)
      (hrest : Trail env opened found names entries found') :
      Trail env opened found (name :: names) ((name, .plain f) :: entries) found'
  | again {opened : List Digest} {found found' : Findings} {name : String} {names : List String}
      {entries : List (String × Entry)} {w : WorkUnit}
      (hunit : env.bindings.get? name = some (.unit w)) (hrecurs : env.Recurs w)
      (hopen : w.identity ∈ opened) (hrest : Trail env opened found names entries found') :
      Trail env opened found (name :: names)
        ((name, .unit (recursionDigest w.identity)) :: entries) found'
  | known {opened : List Digest} {found found' : Findings} {name : String} {names : List String}
      {entries : List (String × Entry)} {w : WorkUnit} {d : Digest}
      (hunit : env.bindings.get? name = some (.unit w)) (hrecurs : env.Recurs w)
      (hopen : w.identity ∉ opened) (hknown : found.lookup w.identity = some (.pure d))
      (hrest : Trail env opened found names entries found') :
      Trail env opened found (name :: names) ((name, .unit d) :: entries) found'
  | inside {opened : List Digest} {found found₁ found' : Findings} {name : String}
      {names : List String} {inner entries : List (String × Entry)} {w : WorkUnit}
      (hunit : env.bindings.get? name = some (.unit w)) (hrecurs : env.Recurs w)
      (hopen : w.identity ∉ opened) (hnew : found.lookup w.identity = none)
      (hinner : Trail env (w.identity :: opened) found w.freeVars.toList inner found₁)
      (hrest : Trail env opened ((w.identity, .pure (w.outline.body inner).digest) :: found₁)
        names entries found') :
      Trail env opened found (name :: names)
        ((name, .unit (w.outline.body inner).digest) :: entries) found'
  /-- A unit that does not recur is gone through, and not noted. -/
  | anew {opened : List Digest} {found found₁ found' : Findings} {name : String}
      {names : List String} {inner entries : List (String × Entry)} {w : WorkUnit}
      (hunit : env.bindings.get? name = some (.unit w)) (hrecurs : ¬ env.Recurs w)
      (hinner : Trail env (w.identity :: opened) found w.freeVars.toList inner found₁)
      (hrest : Trail env opened found₁ names entries found') :
      Trail env opened found (name :: names)
        ((name, .unit (w.outline.body inner).digest) :: entries) found'

/-- What has been noted stays. -/
def Extends (found found' : Findings) : Prop :=
  ∀ key p, found.lookup key = some p → found'.lookup key = some p

omit [HashFunction] in
theorem Extends.refl (found : Findings) : Extends found found := fun _ _ h => h

omit [HashFunction] in
theorem Extends.trans {found₁ : Findings} (h : Extends found found₁) (h' : Extends found₁ found') :
    Extends found found' := fun key p hp => h' key p (h key p hp)

omit [HashFunction] in
theorem extends_cons {key : Digest} (hnew : found.lookup key = none) (p : Purity) :
    Extends found ((key, p) :: found) := by
  intro key' p' hp
  have hne : key' ≠ key := by
    rintro rfl
    rw [hnew] at hp
    cases hp
  rw [List.lookup_cons, beq_eq_false_iff_ne.2 hne]
  exact hp

/-- Nothing is noted about a unit while it is open. -/
theorem Trail.open_unnoted (h : env.Trail opened found names entries found') {key : Digest}
    (hopen : key ∈ opened) (hnew : found.lookup key = none) : found'.lookup key = none := by
  induction h with
  | nil => exact hnew
  | plain _ _ ih => exact ih hopen hnew
  | again _ _ _ _ ih => exact ih hopen hnew
  | known _ _ _ _ _ ih => exact ih hopen hnew
  | @inside _ _ _ _ _ _ _ _ w hunit hrecurs hopen' hnew' _ _ ihinner ih =>
    refine ih hopen ?_
    have hne : key ≠ w.identity := by
      intro heq
      exact hopen' (heq ▸ hopen)
    rw [List.lookup_cons, beq_eq_false_iff_ne.2 hne]
    exact ihinner (List.mem_cons_of_mem _ hopen) hnew
  | anew _ _ _ _ ihinner ih => exact ih hopen (ihinner (List.mem_cons_of_mem _ hopen) hnew)

theorem Trail.extends (h : env.Trail opened found names entries found') : Extends found found' := by
  induction h with
  | nil => exact .refl _
  | plain _ _ ih => exact ih
  | again _ _ _ _ ih => exact ih
  | known _ _ _ _ _ ih => exact ih
  | inside hunit hrecurs hopen hnew hinner _ ihinner ih =>
    have hunnoted := hinner.open_unnoted (List.mem_cons_self ..) hnew
    exact (ihinner.trans (extends_cons hunnoted _)).trans ih
  | anew _ _ _ _ ihinner ih => exact ihinner.trans ih

/-- **What a trail writes, it writes again when it is followed again**, if it meets nothing that is
open: whatever is open then, and whatever else has been noted. -/
theorem Trail.repeated (h : env.Trail opened found names entries found')
    (happart : env.TellsApart u) (hw : env.Meets u w) (hnames : ∀ name ∈ names, env.Reaches w name)
    (hclear : env.Clear opened w) (hclear' : env.Clear opened' w) (hnoted : Extends found' booked) :
    env.Trail opened' booked names entries booked := by
  induction h generalizing opened' w with
  | nil => exact .nil
  | plain hplain _ ih =>
    exact .plain hplain (ih hw (List.forall_mem_cons.1 hnames).2 hclear hclear' hnoted)
  | again hunit hrecurs hopen _ _ =>
    exact absurd hopen (hclear _ _ (List.forall_mem_cons.1 hnames).1 hunit)
  | known hunit hrecurs hopen hknown hrest ih =>
    obtain ⟨hreach, hreaches⟩ := List.forall_mem_cons.1 hnames
    exact .known hunit hrecurs (hclear' _ _ hreach hunit) (hnoted _ _ (hrest.extends _ _ hknown))
      (ih hw hreaches hclear hclear' hnoted)
  | inside hunit hrecurs hopen hnew hinner hrest _ ih =>
    -- this time the unit has been noted
    obtain ⟨hreach, hreaches⟩ := List.forall_mem_cons.1 hnames
    refine .known hunit hrecurs (hclear' _ _ hreach hunit) (hnoted _ _ (hrest.extends _ _ ?_))
      (ih hw hreaches hclear hclear' hnoted)
    rw [List.lookup_cons, beq_self_eq_true]
  | @anew _ _ _ _ _ _ _ _ x hunit hrecurs hinner hrest ihinner ih =>
    obtain ⟨hreach, hreaches⟩ := List.forall_mem_cons.1 hnames
    have hx : env.Meets u x := .named (hw.reaches hreach) hunit
    exact .anew hunit hrecurs
      (ihinner hx (fun name hname => .own hname) (hclear.below happart hw hreach hunit hrecurs)
        (hclear'.below happart hw hreach hunit hrecurs) (hrest.extends.trans hnoted))
      (ih hw hreaches hclear hclear' hnoted)

/-! ## §3. Walks are trails. -/

/-- The unit can be gone through without noting anything, as long as it reaches nothing open. -/
def Repeats (env : Environment) (booked : Findings) (w : WorkUnit)
    (inner : List (String × Entry)) : Prop :=
  ∀ opened found, Extends booked found → env.Clear opened w →
    env.Trail opened found w.freeVars.toList inner found

/-- What has been found on a walk, and what has been noted on the trail: the same about units that
recur, and all others can be gone through again. -/
structure Noted (env : Environment) (u : WorkUnit) (found booked : Findings) : Prop where
  recurring : ∀ w, env.Meets u w → env.Recurs w →
    found.lookup w.identity = booked.lookup w.identity
  others : ∀ w p, env.Meets u w → ¬ env.Recurs w → found.lookup w.identity = some p →
    ∃ inner, p = .pure (w.outline.body inner).digest ∧ env.Repeats booked w inner

/-- A unit that recurs and a unit that does not have different identities. -/
theorem TellsApart.ne_of_recurs (happart : env.TellsApart u) (hv : env.Meets u v)
    (hw : env.Meets u w) (hrecurs : env.Recurs v) (hrecurs' : ¬ env.Recurs w) :
    v.identity ≠ w.identity :=
  fun hidentity => hrecurs' (hrecurs.of_outline (happart v w hv hw hidentity))

/-- A unit that recurs is noted on both. -/
theorem Noted.note (h : env.Noted u found booked) (happart : env.TellsApart u)
    (hw : env.Meets u w) (hrecurs : env.Recurs w) (hnew : booked.lookup w.identity = none)
    (p : Purity) : env.Noted u ((w.identity, p) :: found) ((w.identity, p) :: booked) where
  recurring v hv hv' := by
    rw [List.lookup_cons, List.lookup_cons, h.recurring v hv hv']
  others v q hv hv' hq := by
    have hne : v.identity ≠ w.identity := (happart.ne_of_recurs hw hv hrecurs hv').symm
    rw [List.lookup_cons, beq_eq_false_iff_ne.2 hne] at hq
    obtain ⟨inner, hp, hrepeats⟩ := h.others v q hv hv' hq
    exact ⟨inner, hp, fun opened found hextends hclear =>
      hrepeats opened found ((extends_cons hnew p).trans hextends) hclear⟩

/-- A unit that does not is found out about only on the walk. -/
theorem Noted.pass (h : env.Noted u found booked) (happart : env.TellsApart u)
    (hw : env.Meets u w) (hrecurs : ¬ env.Recurs w) (hrepeats : env.Repeats booked w inner) :
    env.Noted u ((w.identity, .pure (w.outline.body inner).digest) :: found) booked where
  recurring v hv hv' := by
    have hne : v.identity ≠ w.identity := happart.ne_of_recurs hv hw hv' hrecurs
    rw [List.lookup_cons, beq_eq_false_iff_ne.2 hne]
    exact h.recurring v hv hv'
  others v q hv hv' hq := by
    by_cases hsame : v.identity = w.identity
    · rw [List.lookup_cons, hsame, beq_self_eq_true] at hq
      have houtline : v.outline = w.outline := happart v w hv hw hsame
      refine ⟨inner, by rw [houtline]; exact (Option.some.inj hq).symm, ?_⟩
      intro opened found hextends hclear
      have hnames : v.freeVars.toList = w.freeVars.toList := congrArg Outline.names houtline
      rw [hnames]
      exact hrepeats opened found hextends fun name x hreach =>
        hclear name x (hreach.of_outline houtline.symm)
    · rw [List.lookup_cons, beq_eq_false_iff_ne.2 hsame] at hq
      exact h.others v q hv hv' hq

/-- **Every walk without pinning is a trail**, with the same things written beside its names. -/
theorem Walk.trail (h : env.Walk false opened found names entries found')
    (happart : env.TellsApart u) (hnames : ∀ name ∈ names, env.Reaches u name)
    (haround : env.Around u opened names) (hnoted : env.Noted u found booked) :
    ∃ booked', env.Trail opened booked names entries booked' ∧ env.Noted u found' booked' := by
  induction h generalizing booked with
  | nil => exact ⟨booked, .nil, hnoted⟩
  | plain hplain _ ih =>
    obtain ⟨booked', htrail, hnoted'⟩ :=
      ih (List.forall_mem_cons.1 hnames).2 haround.of_cons hnoted
    exact ⟨booked', .plain hplain htrail, hnoted'⟩
  | again hunit hopen _ ih =>
    obtain ⟨hreach, hreaches⟩ := List.forall_mem_cons.1 hnames
    have hrecurs := haround.recurs happart (.named hreach hunit) hunit hopen
    obtain ⟨booked', htrail, hnoted'⟩ := ih hreaches haround.of_cons hnoted
    exact ⟨booked', .again hunit hrecurs hopen htrail, hnoted'⟩
  | @known _ _ _ _ _ _ w d hunit hopen hknown _ ih =>
    obtain ⟨hreach, hreaches⟩ := List.forall_mem_cons.1 hnames
    have hw : env.Meets u w := .named hreach hunit
    obtain ⟨booked', htrail, hnoted'⟩ := ih hreaches haround.of_cons hnoted
    refine ⟨booked', ?_, hnoted'⟩
    by_cases hrecurs : env.Recurs w
    · exact .known hunit hrecurs hopen (hnoted.recurring w hw hrecurs ▸ hknown) htrail
    -- a unit that does not recur has not been noted, and is gone through again
    · obtain ⟨inner, hd, hrepeats⟩ := hnoted.others w _ hw hrecurs hknown
      obtain rfl := Purity.pure.inj hd
      exact .anew hunit hrecurs
        (hrepeats _ booked (.refl _) (haround.clear happart hw hunit hrecurs)) htrail
  | @inside _ _ _ _ _ _ inner _ w modules _ hunit hopen hnew hmodules _ _ ihinner ih =>
    obtain ⟨hreach, hreaches⟩ := List.forall_mem_cons.1 hnames
    have hw : env.Meets u w := .named hreach hunit
    have hbody := WorkUnit.body_unpinned hmodules inner
    rw [hbody] at ih ⊢
    obtain ⟨booked₁, hinner, hnoted₁⟩ :=
      ihinner (fun name hname => hw.reaches (.own hname)) (haround.opens hw hunit) hnoted
    by_cases hrecurs : env.Recurs w
    · have hfresh : booked.lookup w.identity = none := hnoted.recurring w hw hrecurs ▸ hnew
      have hunnoted := hinner.open_unnoted (List.mem_cons_self ..) hfresh
      obtain ⟨booked', htrail, hnoted'⟩ :=
        ih hreaches haround.of_cons (hnoted₁.note happart hw hrecurs hunnoted _)
      exact ⟨booked', .inside hunit hrecurs hopen hfresh hinner htrail, hnoted'⟩
    · have hclear := haround.clear happart hw hunit hrecurs
      have hrepeats : env.Repeats booked₁ w inner := fun opened found hextends hclear' =>
        hinner.repeated happart hw (fun name hname => .own hname) hclear hclear' hextends
      obtain ⟨booked', htrail, hnoted'⟩ :=
        ih hreaches haround.of_cons (hnoted₁.pass happart hw hrecurs hrepeats)
      exact ⟨booked', .anew hunit hrecurs hinner htrail, hnoted'⟩

/-- A unit that has a content without pinning has it by a trail. -/
theorem trail_of_purity (happart : env.TellsApart u) {d : Digest}
    (h : purity env false u = .ok (.pure d)) : ∃ entries booked,
      env.Trail [u.identity] [] u.freeVars.toList entries booked ∧
      d = (u.outline.body entries).digest := by
  obtain ⟨modules, seen, entries, found, hmodules, hwalk, rfl⟩ := purity_eq_pure_iff.1 h
  have hown : ∀ name ∈ u.freeVars.toList, env.Reaches u name := fun name hname => .own hname
  have haround : env.Around u [u.identity] u.freeVars.toList := by
    intro key hkey
    exact ⟨u, .root, (List.mem_singleton.1 hkey).symm, hown⟩
  have hnoted : env.Noted u [] [] := ⟨fun _ _ _ => rfl, fun _ _ _ _ hp => nomatch hp⟩
  obtain ⟨booked, htrail, -⟩ := hwalk.trail happart hown haround hnoted
  exact ⟨entries, booked, htrail, by rw [WorkUnit.body_unpinned hmodules]⟩

/-! ## §4. What a trail writes can be told apart. -/

theorem Trail.regular (h : env.Trail opened found names entries found')
    (hfound : AreMessages found) : AreMessages found' ∧ ∀ e ∈ entries, e.2.IsRegular := by
  induction h with
  | nil => exact ⟨hfound, by simp⟩
  | plain hplain _ ih =>
    obtain ⟨hfound', hentries⟩ := ih hfound
    exact ⟨hfound', List.forall_mem_cons.2 ⟨plain?_regular hplain, hentries⟩⟩
  | again _ _ _ _ ih =>
    obtain ⟨hfound', hentries⟩ := ih hfound
    exact ⟨hfound', List.forall_mem_cons.2 ⟨⟨_, rfl⟩, hentries⟩⟩
  | known _ _ _ hknown _ ih =>
    obtain ⟨hfound', hentries⟩ := ih hfound
    exact ⟨hfound', List.forall_mem_cons.2 ⟨hfound _ _ (mem_of_lookup hknown), hentries⟩⟩
  | inside _ _ _ _ _ _ ihinner ih =>
    obtain ⟨hfound', hentries⟩ := ih ((ihinner hfound).1.cons ⟨_, rfl⟩)
    exact ⟨hfound', List.forall_mem_cons.2 ⟨⟨_, rfl⟩, hentries⟩⟩
  | anew _ _ _ _ ihinner ih =>
    obtain ⟨hfound', hentries⟩ := ih (ihinner hfound).1
    exact ⟨hfound', List.forall_mem_cons.2 ⟨⟨_, rfl⟩, hentries⟩⟩

theorem Trail.listed (h : env.Trail opened found names entries found') :
    entries.map Prod.fst = names := by
  induction h with
  | nil => rfl
  | _ => simp_all

/-- So the body of a unit that is gone through is regular. -/
theorem Trail.body_regular (h : env.Trail opened found w.freeVars.toList entries found')
    (hfound : AreMessages found) (hw : w.IsRegular) : (w.outline.body entries).IsRegular := by
  refine Outline.body_regular hw.source fun e he => ⟨hw.names e.1 ?_, (h.regular hfound).2 e he⟩
  rw [← h.listed]
  exact List.mem_map_of_mem he

end Environment

end Notebook
