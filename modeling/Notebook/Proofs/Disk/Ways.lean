/-
  Notebook.Proofs.Disk.Ways — where a path ends on a disk that was changed.

  Where a path ends depends on which names lead to directories, and on nothing else.  Making the
  directories on the way of a path adds directories where nothing was, so a path that was followed
  to its end ends there still, and one that did not come to its end for want of a directory may now
  do so.  A path that does not go up cannot come to a directory that was made on its own way: those
  stand above the place where it ends.

  Main results:
    * `Disk.SameDirectories.locate_eq_ok_iff` — the same directories, the same places,
    * `Disk.grown_makeWays` — what making the directories on the way changes,
    * `Disk.makeWays_of_locate` — nothing is made when the path can be followed,
    * `Disk.found?_makeWays` — nor can it then be followed to something else.
-/
import Notebook.Disk.Basic
import Notebook.Proofs.Disk.Paths
import Mathlib.Data.List.Induction

namespace Notebook.Disk

open Notebook.Path (Step LeadsOn OnWay)

/-! ## §1. What stands at a place. -/

/-- The names that lead to a place. -/
def Place.names : Place → List String
  | .directory names => names
  | .entry parent name => parent ++ [name]

/-- The directory that a place is, or is in. -/
def Place.within : Place → List String
  | .directory names => names
  | .entry parent _ => parent

variable {d d' d'' : Disk} {p q : Path} {names directory other : List String} {name : String}
  {steps later : List Step} {place : Place} {node : Node} {found : Option Node}
  {made : List String → Prop} {ways : List Path}

theorem node?_put (d : Disk) (hne : names ≠ []) (node : Node) (other : List String) :
    (d.put names node).node? other = if other = names then some node else d.node? other := by
  unfold node? put
  rw [Table.get?_insert]
  cases other with
  | nil => exact (if_neg hne.symm).symm
  | cons => rfl

theorem lookup_eq_ok_iff : d.lookup directory name = .ok found ↔
    name.utf8ByteSize ≤ maxNameSize ∧ d.node? (directory ++ [name]) = found := by
  unfold lookup
  split
  · rename_i hlong
    exact iff_of_false (by simp) fun h => by omega
  · rename_i hshort
    rw [Except.ok.injEq, and_iff_right (by omega)]

/-- What stands at a place. -/
def nodeAt (d : Disk) : Place → Except IoError (Option Node)
  | .directory _ => .ok (some .directory)
  | .entry directory name => d.lookup directory name

/-- What a path leads to, if to anything. -/
def found? (d : Disk) (p : Path) : Option Node := (d.resolve p).toOption.map Prod.snd

/-- The content of a file. -/
def file? (d : Disk) (names : List String) : Option (List UInt8) :=
  match d.node? names with
  | some (.file content) => some content
  | _ => none

/-- The names are those of an entry that a path leads to, whether it is there or not. -/
def LeadsTo (d : Disk) (p : Path) (names : List String) : Prop :=
  ∃ directory name, d.locate p = .ok (.entry directory name) ∧ names = directory ++ [name]

theorem found?_of_locate_error {e : IoError} (h : d.locate p = .error e) : d.found? p = none := by
  rw [found?, resolve, h]
  rfl

/-- Behind a slash a file is not found. -/
theorem found?_of_locate (h : d.locate p = .ok place) :
    d.found? p = match d.nodeAt place with
      | .ok (some .directory) => some .directory
      | .ok (some (.file content)) => if p.meansDirectory then none else some (.file content)
      | _ => none := by
  rw [found?, resolve, h]
  cases place with
  | directory names => rfl
  | entry directory name =>
    simp only [nodeAt]
    cases d.lookup directory name with
    | error => rfl
    | ok found =>
      rcases found with _ | content | _
      · rfl
      · cases p.meansDirectory <;> rfl
      · rfl

theorem found?_of_entry_missing (h : d.locate p = .ok (.entry directory name))
    (hmissing : d.node? (directory ++ [name]) = none) : d.found? p = none := by
  rw [found?_of_locate h, nodeAt, lookup, hmissing]
  by_cases hlong : maxNameSize < name.utf8ByteSize
  · rw [if_pos hlong]
  · rw [if_neg hlong]

/-! ## §2. Disks with the same directories. -/

/-- The same names lead to directories. -/
def SameDirectories (d d' : Disk) : Prop :=
  ∀ names, d.node? names = some .directory ↔ d'.node? names = some .directory

theorem SameDirectories.symm (h : d.SameDirectories d') : d'.SameDirectories d :=
  fun names => (h names).symm

theorem SameDirectories.trans (h : d.SameDirectories d') (h' : d'.SameDirectories d'') :
    d.SameDirectories d'' := fun names => (h names).trans (h' names)

theorem follow_down {rest : List Step} (hne : rest ≠ []) :
    d.follow names (.down name :: rest) = match d.lookup names name with
      | .error e => .error e
      | .ok (some .directory) => d.follow (names ++ [name]) rest
      | .ok (some (.file _)) => .error .notADirectory
      | .ok none => .error .notFound := by
  cases rest with
  | nil => exact absurd rfl hne
  | cons => rfl

/-- Steps that can be followed can be followed on a disk with more directories. -/
theorem follow_mono
    (h : ∀ names, d.node? names = some .directory → d'.node? names = some .directory)
    (hplace : d.follow names steps = .ok place) : d'.follow names steps = .ok place := by
  -- only a name that leads to a directory looks at the disk and goes on, which is the sixth case
  fun_induction follow d names steps with
  | case1 => exact hplace
  | case2 names rest ih => exact ih hplace
  | case3 names rest ih => exact ih hplace
  | case4 => exact hplace
  | case5 => cases hplace
  | case6 names name rest hrest hlookup ih =>
    obtain ⟨hshort, hnode⟩ := lookup_eq_ok_iff.1 hlookup
    rw [follow_down hrest, lookup_eq_ok_iff.2 ⟨hshort, h _ hnode⟩]
    exact ih hplace
  | case7 => cases hplace
  | case8 => cases hplace

theorem locate_eq (hnul : p.text.contains '\x00' = false)
    (hshort : p.text.utf8ByteSize ≤ maxPathSize) (hsteps : p.steps ≠ []) : d.locate p = d.follow [] p.steps := by
  rw [locate, if_neg (by simp [hnul]), if_neg (by omega), if_neg (by simpa using hsteps)]

theorem locate_eq_ok_iff : d.locate p = .ok place ↔
    p.text.contains '\x00' = false ∧ p.text.utf8ByteSize ≤ maxPathSize ∧ p.steps ≠ [] ∧
      d.follow [] p.steps = .ok place := by
  constructor
  · intro h
    by_cases hnul : p.text.contains '\x00' = true
    · rw [locate, if_pos hnul] at h
      cases h
    by_cases hlong : maxPathSize < p.text.utf8ByteSize
    · rw [locate, if_neg hnul, if_pos hlong] at h
      cases h
    by_cases hsteps : p.steps = []
    · rw [locate, if_neg hnul, if_neg hlong, hsteps] at h
      cases h
    rw [Bool.not_eq_true] at hnul
    exact ⟨hnul, by omega, hsteps, (locate_eq hnul (by omega) hsteps).symm.trans h⟩
  · rintro ⟨hnul, hshort, hsteps, h⟩
    rw [locate_eq hnul hshort hsteps, h]

theorem locate_mono
    (h : ∀ names, d.node? names = some .directory → d'.node? names = some .directory)
    (hplace : d.locate p = .ok place) : d'.locate p = .ok place := by
  obtain ⟨hnul, hshort, hsteps, hfollow⟩ := locate_eq_ok_iff.1 hplace
  exact locate_eq_ok_iff.2 ⟨hnul, hshort, hsteps, follow_mono h hfollow⟩

/-- **The same directories, the same places.** -/
theorem SameDirectories.locate_eq_ok_iff (h : d.SameDirectories d') :
    d.locate p = .ok place ↔ d'.locate p = .ok place :=
  ⟨locate_mono fun names => (h names).1, locate_mono fun names => (h names).2⟩

/-! ## §3. Disks with more directories. -/

/-- Where nothing was there may be a directory now, at some names; all else is as it was. -/
def Grown (made : List String → Prop) (d d' : Disk) : Prop :=
  ∀ names, d'.node? names = d.node? names ∨
    d.node? names = none ∧ d'.node? names = some .directory ∧ made names

theorem Grown.refl (d : Disk) : Grown made d d := fun _ => .inl rfl

theorem Grown.trans (h : Grown made d d') (h' : Grown made d' d'') : Grown made d d'' := by
  intro names
  rcases h names with hsame | ⟨hnone, hdirectory, hmade⟩
  · rcases h' names with hsame' | ⟨hnone, hdirectory, hmade⟩
    · exact .inl (hsame'.trans hsame)
    · exact .inr ⟨hsame.symm.trans hnone, hdirectory, hmade⟩
  · rcases h' names with hsame' | ⟨hnone', -, -⟩
    · exact .inr ⟨hnone, hsame'.trans hdirectory, hmade⟩
    · rw [hnone'] at hdirectory
      cases hdirectory

/-- No file was made, and none was changed. -/
theorem Grown.file?_eq (h : Grown made d d') (names : List String) :
    d'.file? names = d.file? names := by
  unfold file?
  rcases h names with hsame | ⟨hnone, hdirectory, -⟩
  · rw [hsame]
  · rw [hnone, hdirectory]

/-- Steps that can be followed now could be followed before, or a directory was missing. -/
theorem Grown.follow_eq (h : Grown made d d') (hplace : d'.follow names steps = .ok place) :
    d.follow names steps = .ok place ∨ d.follow names steps = .error .notFound := by
  fun_induction follow d' names steps with
  | case1 => exact .inl hplace
  | case2 names rest ih => exact ih hplace
  | case3 names rest ih => exact ih hplace
  | case4 => exact .inl hplace
  | case5 => cases hplace
  | case6 names name rest hrest hlookup ih =>
    obtain ⟨hshort, hnode⟩ := lookup_eq_ok_iff.1 hlookup
    rw [follow_down hrest]
    rcases h (names ++ [name]) with hsame | ⟨hnone, -, -⟩
    · rw [lookup_eq_ok_iff.2 ⟨hshort, hsame.symm.trans hnode⟩]
      exact ih hplace
    · rw [lookup_eq_ok_iff.2 ⟨hshort, hnone⟩]
      exact .inr rfl
  | case7 => cases hplace
  | case8 => cases hplace

theorem Grown.locate_eq (h : Grown made d d') (hplace : d'.locate p = .ok place) :
    d.locate p = .ok place ∨ d.locate p = .error .notFound := by
  obtain ⟨hnul, hshort, hsteps, hfollow⟩ := Disk.locate_eq_ok_iff.1 hplace
  rcases h.follow_eq hfollow with hok | hmissing
  · exact .inl (Disk.locate_eq_ok_iff.2 ⟨hnul, hshort, hsteps, hok⟩)
  · exact .inr ((Disk.locate_eq hnul hshort hsteps).trans hmissing)

/-! ## §4. Everything is in a directory. -/

/-- Whatever stands somewhere stands in a directory. -/
def WellFormed (d : Disk) : Prop :=
  ∀ names ∈ d.nodes.keys, d.node? names.dropLast = some .directory

instance (d : Disk) : Decidable d.WellFormed :=
  inferInstanceAs (Decidable (∀ names ∈ d.nodes.keys, d.node? names.dropLast = some .directory))

theorem wellFormed_iff :
    d.WellFormed ↔ ∀ names, d.node? names ≠ none → d.node? names.dropLast = some .directory := by
  constructor
  · intro h names hnode
    cases names with
    | nil => rfl
    | cons first rest => exact h _ ((Table.mem_keys_iff _).2 (Option.isSome_iff_ne_none.2 hnode))
  · intro h names hmem
    by_cases hnil : names = []
    · rw [hnil]
      rfl
    · refine h names ?_
      rw [node?, if_neg (by simpa using hnil)]
      exact Option.isSome_iff_ne_none.1 ((Table.mem_keys_iff _).1 hmem)

/-- What stands somewhere stands below directories only. -/
theorem WellFormed.node?_of_append (h : d.WellFormed) (hnode : d.node? (names ++ other) ≠ none) :
    d.node? names ≠ none := by
  induction other using List.reverseRecOn with
  | nil => rwa [List.append_nil] at hnode
  | append_singleton other name ih =>
    refine ih ?_
    have hparent := wellFormed_iff.1 h _ hnode
    rw [← List.append_assoc, List.dropLast_concat] at hparent
    rw [hparent]
    exact nofun

/-- A disk stays well-formed when its directories stay and what is new is in one of them. -/
theorem WellFormed.change (h : d.WellFormed)
    (hstay : ∀ names, d.node? names = some .directory → d'.node? names = some .directory)
    (hnew : ∀ names, d'.node? names ≠ none →
      d.node? names ≠ none ∨ d.node? names.dropLast = some .directory) : d'.WellFormed := by
  refine wellFormed_iff.2 fun names hnode => hstay _ ?_
  rcases hnew names hnode with hold | hparent
  · exact wellFormed_iff.1 h names hold
  · exact hparent

theorem WellFormed.node?_of_follow (h : d.WellFormed) (hstart : d.node? names = some .directory)
    (hplace : d.follow names steps = .ok place) : d.node? place.within = some .directory := by
  fun_induction follow d names steps with
  | case1 =>
    cases hplace
    exact hstart
  | case2 names rest ih => exact ih hstart hplace
  | case3 names rest ih =>
    have hnode : d.node? names ≠ none := by
      rw [hstart]
      exact nofun
    exact ih (wellFormed_iff.1 h names hnode) hplace
  | case4 =>
    cases hplace
    exact hstart
  | case5 => cases hplace
  | case6 names name rest hrest hlookup ih => exact ih (lookup_eq_ok_iff.1 hlookup).2 hplace
  | case7 => cases hplace
  | case8 => cases hplace

/-- A path ends in a directory that is there. -/
theorem WellFormed.node?_within (h : d.WellFormed) (hplace : d.locate p = .ok place) :
    d.node? place.within = some .directory :=
  h.node?_of_follow rfl (locate_eq_ok_iff.1 hplace).2.2.2

/-! ## §5. Paths that do not go up. -/

/-- The names that steps go down to. -/
def downs (steps : List Step) : List String :=
  steps.filterMap fun
    | .down name => some name
    | _ => none

theorem names_of_follow (hup : Step.up ∉ steps) (hplace : d.follow names steps = .ok place) :
    place.names = names ++ downs steps := by
  fun_induction follow d names steps with
  | case1 =>
    cases hplace
    exact (List.append_nil _).symm
  | case2 names rest ih => exact ih (fun hmem => hup (List.mem_cons_of_mem _ hmem)) hplace
  | case3 => exact absurd List.mem_cons_self hup
  | case4 =>
    cases hplace
    rfl
  | case5 => cases hplace
  | case6 names name rest hrest hlookup ih =>
    rw [ih (fun hmem => hup (List.mem_cons_of_mem _ hmem)) hplace, List.append_assoc]
    rfl
  | case7 => cases hplace
  | case8 => cases hplace

theorem names_of_locate (hup : Step.up ∉ p.steps) (hplace : d.locate p = .ok place) :
    place.names = downs p.steps :=
  names_of_follow hup (locate_eq_ok_iff.1 hplace).2.2.2

/-- Something was there already, so all directories above it were. -/
theorem Grown.follow_of_node? (h : Grown made d d') (hwf : d.WellFormed) (hup : Step.up ∉ steps)
    (hplace : d'.follow names steps = .ok place) (hnode : d.node? place.names ≠ none) :
    d.follow names steps = .ok place := by
  fun_induction follow d' names steps with
  | case1 => exact hplace
  | case2 names rest ih => exact ih (fun hmem => hup (List.mem_cons_of_mem _ hmem)) hplace
  | case3 => exact absurd List.mem_cons_self hup
  | case4 => exact hplace
  | case5 => cases hplace
  | case6 names name rest hrest hlookup ih =>
    have hrestUp : Step.up ∉ rest := fun hmem => hup (List.mem_cons_of_mem _ hmem)
    obtain ⟨hshort, hdirectory⟩ := lookup_eq_ok_iff.1 hlookup
    rw [names_of_follow hrestUp hplace] at hnode
    rw [follow_down hrest]
    rcases h (names ++ [name]) with hsame | ⟨hnone, -, -⟩
    · rw [lookup_eq_ok_iff.2 ⟨hshort, hsame.symm.trans hdirectory⟩]
      exact ih hrestUp hplace
    · exact absurd hnone (hwf.node?_of_append hnode)
  | case7 => cases hplace
  | case8 => cases hplace

/-! ## §6. Making the directories on the way. -/

theorem exists_of_makeDirectory (h : d.makeDirectory q = .ok d') :
    ∃ directory name, d.locate q = .ok (.entry directory name) ∧
      d.node? (directory ++ [name]) = none ∧ d' = d.put (directory ++ [name]) .directory := by
  unfold makeDirectory at h
  split at h
  · cases h
  · cases h
  · rename_i directory name hlocate
    split at h
    · cases h
    · cases h
    · rename_i hlookup
      cases h
      exact ⟨directory, name, hlocate, (lookup_eq_ok_iff.1 hlookup).2, rfl⟩

/-- Nothing is made, or one directory is. -/
theorem ensureDirectory_cases (d : Disk) (q : Path) :
    (d.ensureDirectory q).2 = d ∨ ∃ directory name, d.locate q = .ok (.entry directory name) ∧
      d.node? (directory ++ [name]) = none ∧
      (d.ensureDirectory q).2 = d.put (directory ++ [name]) .directory := by
  unfold ensureDirectory
  cases hmake : d.makeDirectory q with
  | ok d' =>
    obtain ⟨directory, name, hlocate, hnone, rfl⟩ := exists_of_makeDirectory hmake
    exact .inr ⟨directory, name, hlocate, hnone, rfl⟩
  | error e =>
    refine .inl ?_
    cases d.isDirectory q <;> rfl

/-- What each of the directories keeps when it is made, making them all keeps. -/
theorem makeWays_induction {R : Disk → Disk → Prop} (hrefl : ∀ d, R d d)
    (htrans : ∀ {d d' d''}, R d d' → R d' d'' → R d d'')
    (hstep : ∀ q ∈ ways, ∀ d, R d (d.ensureDirectory q).2) (d : Disk) :
    R d (d.makeWays ways).2 := by
  fun_induction makeWays d ways with
  | case1 => exact hrefl d
  | case2 q outer _ _ made houter ih =>
    rw [houter] at ih
    exact htrans (ih fun q hmem => hstep q (List.mem_cons_of_mem _ hmem))
      (hstep q List.mem_cons_self made)
  | case3 q outer _ _ e made houter ih =>
    rw [houter] at ih
    exact ih fun q hmem => hstep q (List.mem_cons_of_mem _ hmem)
  | case4 q outer => exact hstep q List.mem_cons_self d

/-- **What making directories changes.** -/
theorem grown_makeWays (d : Disk) (hmade : ∀ q ∈ ways, ∀ d : Disk, ∀ directory name,
      d.locate q = .ok (.entry directory name) → made (directory ++ [name])) :
    Grown made d (d.makeWays ways).2 := by
  refine makeWays_induction Grown.refl Grown.trans (fun q hq d => ?_) d
  rcases d.ensureDirectory_cases q with hsame | ⟨directory, name, hlocate, hnone, hput⟩
  · rw [hsame]
    exact .refl d
  · intro names
    rw [hput, node?_put d (by simp)]
    by_cases hnames : names = directory ++ [name]
    · rw [if_pos hnames, hnames]
      exact .inr ⟨hnone, rfl, hmade q hq d directory name hlocate⟩
    · exact .inl (if_neg hnames)

theorem WellFormed.makeWays (h : d.WellFormed) : (d.makeWays ways).2.WellFormed := by
  refine makeWays_induction (R := fun d d' => d.WellFormed → d'.WellFormed) (fun _ => id)
    (fun hfirst hnext h => hnext (hfirst h)) (fun q _ d hwf => ?_) d h
  rcases d.ensureDirectory_cases q with hsame | ⟨directory, name, hlocate, -, hput⟩
  · rwa [hsame]
  · rw [hput]
    have hparent := hwf.node?_within hlocate
    have hne : directory ++ [name] ≠ [] := by simp
    refine hwf.change (fun names hnode => ?_) fun names hnode => ?_
    · rw [node?_put d hne, hnode, ite_self]
    · rw [node?_put d hne] at hnode
      by_cases hnames : names = directory ++ [name]
      · refine .inr ?_
        rw [hnames, List.dropLast_concat]
        exact hparent
      · rw [if_neg hnames] at hnode
        exact .inl hnode

/-- Steps that go on have to come through a directory. -/
theorem follow_append (hlater : later ≠ []) (hplace : d.follow names (steps ++ later) = .ok place) :
    ∃ place', d.follow names steps = .ok place' ∧ d.nodeAt place' = .ok (some .directory) := by
  fun_induction follow d names steps with
  | case1 names => exact ⟨.directory names, rfl, rfl⟩
  | case2 names rest ih => exact ih hplace
  | case3 names rest ih => exact ih hplace
  | case4 names name =>
    refine ⟨.entry names name, rfl, ?_⟩
    rw [List.singleton_append, follow_down hlater] at hplace
    show d.lookup names name = _
    split at hplace
    · cases hplace
    · assumption
    · cases hplace
    · cases hplace
  | case5 names name rest hrest e hlookup =>
    rw [List.cons_append, follow_down (by simp [hlater]), hlookup] at hplace
    cases hplace
  | case6 names name rest hrest hlookup ih =>
    rw [List.cons_append, follow_down (by simp [hlater]), hlookup] at hplace
    exact ih hplace
  | case7 names name rest hrest content hlookup =>
    rw [List.cons_append, follow_down (by simp [hlater]), hlookup] at hplace
    cases hplace
  | case8 names name rest hrest hlookup =>
    rw [List.cons_append, follow_down (by simp [hlater]), hlookup] at hplace
    cases hplace

/-- The directories on the way of a path that can be followed are there. -/
theorem ensureDirectory_of_onWay (hway : OnWay q p) (hplace : d.locate p = .ok place) :
    d.ensureDirectory q = (.ok (), d) := by
  obtain ⟨r, htext, hsteps, hleads⟩ := hway
  obtain ⟨hnul, hshort, -, hfollow⟩ := locate_eq_ok_iff.1 hplace
  have hpath : p = ⟨q.text ++ "/" ++ r.text⟩ := congrArg Path.mk htext
  have hlater : r.steps ≠ [] := hleads.elim fun step hstep => List.ne_nil_of_mem hstep.1
  rw [hpath, Path.steps_append] at hfollow
  obtain ⟨place', hfollow', hnode⟩ := follow_append hlater hfollow
  have hqnul : q.text.contains '\x00' = false := by
    rw [htext] at hnul
    simp at hnul ⊢
    exact hnul.1
  have hqshort : q.text.utf8ByteSize ≤ maxPathSize := by
    rw [htext] at hshort
    simp at hshort
    omega
  have hlocate := (locate_eq hqnul hqshort hsteps).trans hfollow'
  have hexists : d.makeDirectory q = .error .alreadyExists := by
    rw [makeDirectory, hlocate]
    cases place' with
    | directory => rfl
    | entry directory name =>
      have hlookup : d.lookup directory name = .ok (some .directory) := hnode
      simp only [hlookup]
  have hdirectory : d.isDirectory q = true := by
    rw [isDirectory, resolve, hlocate]
    cases place' with
    | directory => rfl
    | entry directory name =>
      have hlookup : d.lookup directory name = .ok (some .directory) := hnode
      simp only [hlookup]
  rw [ensureDirectory, hexists, hdirectory]
  rfl

/-- **Nothing is made when the path can be followed.** -/
theorem makeWays_of_locate (hplace : d.locate p = .ok place) :
    d.makeWays p.parents = (.ok (), d) := by
  cases hparents : p.parents with
  | nil => rfl
  | cons q outer =>
    have hway : OnWay q p := Path.onWay_of_mem_parents (hparents ▸ List.mem_cons_self)
    rw [makeWays, ensureDirectory_of_onWay hway hplace]

/-- The directories that are made for a path that does not go up stand above its end. -/
theorem downs_ne_of_onWay (hup : Step.up ∉ p.steps) (hway : OnWay q p) :
    Step.up ∉ q.steps ∧ downs q.steps ≠ downs p.steps := by
  obtain ⟨r, htext, -, step, hstep, hstay⟩ := hway
  have hpath : p = ⟨q.text ++ "/" ++ r.text⟩ := congrArg Path.mk htext
  rw [hpath, Path.steps_append] at hup ⊢
  have hrup : Step.up ∉ r.steps := fun hmem => hup (List.mem_append_right _ hmem)
  refine ⟨fun hmem => hup (List.mem_append_left _ hmem), fun heq => ?_⟩
  rw [downs, downs, List.filterMap_append, List.self_eq_append_right,
    List.filterMap_eq_nil_iff] at heq
  cases step with
  | stay => exact hstay rfl
  | up => exact hrup hstep
  | down name => cases heq _ hstep

/-- For a path that does not go up, the directories that are new stand where its ways lead. -/
theorem grown_parents (d : Disk) (hup : Step.up ∉ p.steps) :
    Grown (fun names => ∃ q ∈ p.parents, downs q.steps = names) d (d.makeWays p.parents).2 := by
  refine grown_makeWays d fun q hq d directory name hlocate => ⟨q, hq, ?_⟩
  have hqup := (downs_ne_of_onWay hup (Path.onWay_of_mem_parents hq)).1
  exact (names_of_locate hqup hlocate).symm

/-- **A path that does not go up, or that misses no directory, leads to what it led to** when the
directories on its way have been made. -/
theorem found?_makeWays (hwf : d.WellFormed)
    (h : Step.up ∉ p.steps ∨ d.locate p ≠ .error .notFound) :
    (d.makeWays p.parents).2.found? p = d.found? p := by
  cases hbefore : d.locate p with
  | ok place => rw [makeWays_of_locate hbefore]
  | error e =>
    rw [found?_of_locate_error hbefore]
    cases hafter : (d.makeWays p.parents).2.locate p with
    | error e' => exact found?_of_locate_error hafter
    | ok place =>
      have hgrown : Grown (fun _ => True) d (d.makeWays p.parents).2 :=
        grown_makeWays d fun _ _ _ _ _ _ => trivial
      have hmissing : d.locate p = .error .notFound :=
        (hgrown.locate_eq hafter).resolve_left (by simp [hbefore])
      have hup : Step.up ∉ p.steps := h.resolve_right fun hne => hne hmissing
      obtain ⟨hnul, hshort, hsteps, hfollow⟩ := locate_eq_ok_iff.1 hafter
      have hnames := names_of_locate hup hafter
      -- what is new stands above the end of the path, and what was there can be come to
      have hnode : (d.makeWays p.parents).2.node? place.names = none := by
        rcases grown_parents d hup place.names with hsame | ⟨-, -, q, hq, hnew⟩
        · rw [hsame]
          by_contra hnode
          have hfound := hgrown.follow_of_node? hwf hup hfollow hnode
          rw [locate_eq hnul hshort hsteps, hfound] at hmissing
          cases hmissing
        · have hne := (downs_ne_of_onWay hup (Path.onWay_of_mem_parents hq)).2
          exact absurd (hnew.trans hnames) hne
      cases place with
      | directory names =>
        have hthere := hwf.makeWays.node?_within hafter
        exact absurd (hthere.symm.trans hnode) nofun
      | entry directory name => exact found?_of_entry_missing hafter hnode

end Notebook.Disk
