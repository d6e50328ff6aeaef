/-
  Notebook.Proofs.Cache.Saving — saving a snapshot is all or nothing.

  A save makes the directories on the way, writes beside the target and moves.  When it comes to its
  end, the snapshot is what loading finds.  When it fails, at whichever step, loading finds what it
  would have found once the directories on the way were made; that is what it found before the save,
  unless the path goes up and a directory on its way was missing: such a path may now be followed,
  and come to something that was there or that was just made.  Either way no file is touched but the
  target and the one beside it.

  Main results:
    * `SnapshotFormat.save_cases`, `SnapshotFormat.save_eq_ok_iff` — how and when a save ends,
    * `SnapshotFormat.wellFormed_save` — what it leaves is a disk on which one can save again,
    * `SnapshotFormat.save_allOrNothing` — what loading finds afterwards, and which files changed.
-/
import Notebook.Cache.File
import Notebook.Proofs.Disk.Files

namespace Notebook.SnapshotFormat

open Disk (Place Grown FilesChange)
open Notebook.Path (Step)

variable {α : Type} {f : SnapshotFormat α} {s : α} {p : Path} {d d' d₁ d₂ d₃ : Disk}
  {bytes : List UInt8} {names : List String}

/-! ## §1. Loading. -/

/-- Loading depends on what the path leads to, and on nothing else of the disk. -/
theorem load_eq (f : SnapshotFormat α) (p : Path) (d : Disk) :
    f.load p d = match d.found? p with
      | none => .ok none
      | some .directory => .error (.io .isADirectory)
      | some (.file bytes) =>
        match f.decode? bytes with
        | none => .error .notAnArchive
        | some s =>
          if f.version s = cacheVersion then .ok (some s)
          else .error (.versionMismatch cacheVersion (f.version s)) := by
  unfold load Disk.pathExists Disk.readBytes Disk.found?
  rcases d.resolve p with e | ⟨names, content | _⟩ <;> rfl

theorem load_congr (h : d'.found? p = d.found? p) : f.load p d' = f.load p d := by
  rw [load_eq, h, load_eq]

theorem load_of_encode (h : d.found? p = some (.file (f.encode s))) :
    f.load p d = if f.version s = cacheVersion then .ok (some s)
      else .error (.versionMismatch cacheVersion (f.version s)) := by
  rw [load_eq, h]
  simp only [f.decode?_encode]

/-! ## §2. How a save ends. -/

/-- **How a save ends:** the directories are made and nothing else is done, or a file was written
that could not be moved, or all is done. -/
theorem save_cases (f : SnapshotFormat α) (s : α) (p : Path) (d : Disk) :
    (∃ e, f.save s p d = (.error (.io e), (d.makeWays p.parents).2) ∧
      ((d.makeWays p.parents).1 = .ok () →
        ¬ (d.makeWays p.parents).2.CanTake (p.withExtension "tmp"))) ∨
    (∃ d₂ e, (d.makeWays p.parents).1 = .ok () ∧
      (d.makeWays p.parents).2.write (p.withExtension "tmp") (f.encode s) = .ok d₂ ∧
      d₂.rename (p.withExtension "tmp") p = .error e ∧ f.save s p d = (.error (.io e), d₂)) ∨
    (∃ d₂ d₃, (d.makeWays p.parents).1 = .ok () ∧
      (d.makeWays p.parents).2.write (p.withExtension "tmp") (f.encode s) = .ok d₂ ∧
      d₂.rename (p.withExtension "tmp") p = .ok d₃ ∧ f.save s p d = (.ok (), d₃)) := by
  unfold save
  rcases d.makeWays p.parents with ⟨e | _, d₁⟩
  · exact .inl ⟨e, rfl, nofun⟩
  · cases hwrite : d₁.write (p.withExtension "tmp") (f.encode s) with
    | error e =>
      refine .inl ⟨e, by simp only [hwrite], ?_⟩
      rintro - ⟨directory, name, htakes⟩
      rw [Disk.write_eq_ok_iff.2 ⟨directory, name, htakes, rfl⟩] at hwrite
      cases hwrite
    | ok d₂ =>
      cases hrename : d₂.rename (p.withExtension "tmp") p with
      | error e => exact .inr (.inl ⟨d₂, e, rfl, rfl, hrename, by simp only [hwrite, hrename]⟩)
      | ok d₃ => exact .inr (.inr ⟨d₂, d₃, rfl, rfl, hrename, by simp only [hwrite, hrename]⟩)

/-- **When a save comes to its end:** the directories on the way are there or can be made, and a
file can be put at both paths. -/
theorem save_eq_ok_iff : (f.save s p d).1 = .ok () ↔
    (d.makeWays p.parents).1 = .ok () ∧
      (d.makeWays p.parents).2.CanTake (p.withExtension "tmp") ∧
      (d.makeWays p.parents).2.CanTake p := by
  rcases f.save_cases s p d with ⟨e, h, hnot⟩ | ⟨d₂, e, hways, hwrite, hrename, h⟩ |
    ⟨d₂, d₃, hways, hwrite, hrename, h⟩
  · rw [h]
    exact iff_of_false nofun fun hall => hnot hall.1 hall.2.1
  · obtain ⟨directory, name, htakes, hput⟩ := Disk.write_eq_ok_iff.1 hwrite
    have hnot : ¬ (d.makeWays p.parents).2.CanTake p := by
      rw [← Disk.exists_rename_iff htakes hput, hrename]
      exact fun hmoved => hmoved.elim nofun
    rw [h]
    exact iff_of_false nofun fun hall => hnot hall.2.2
  · obtain ⟨directory, name, htakes, hput⟩ := Disk.write_eq_ok_iff.1 hwrite
    have htarget := (Disk.exists_rename_iff htakes hput).1 ⟨d₃, hrename⟩
    rw [h]
    exact iff_of_true rfl ⟨hways, ⟨directory, name, htakes⟩, htarget⟩

/-- Some of the two files are changed: those that the two paths lead to, each in a directory. -/
def ChangesBeside (p : Path) (d d' : Disk) : Prop :=
  ∃ changed, FilesChange changed d d' ∧ ∀ names ∈ changed,
    d.LeadsTo p names ∨ d.LeadsTo (p.withExtension "tmp") names

theorem changesBeside_of_write
    (h : d.write (p.withExtension "tmp") bytes = .ok d') : ChangesBeside p d d' := by
  obtain ⟨directory, name, htakes, hput⟩ := Disk.write_eq_ok_iff.1 h
  refine ⟨_, Disk.filesChange_of_write htakes hput, fun names hmem => .inr ?_⟩
  exact ⟨directory, name, htakes.located, List.mem_singleton.1 hmem⟩

theorem changesBeside_of_rename
    (h : d.rename (p.withExtension "tmp") p = .ok d') : ChangesBeside p d d' := by
  obtain ⟨oldDirectory, old, newDirectory, new, content, hold, -, hnew, rfl⟩ :=
    Disk.rename_eq_ok_iff.1 h
  have hchange := Disk.filesChange_moved content (by simp) (by simp) hold.free hnew.free
  refine ⟨_, hchange, fun names hmem => ?_⟩
  rcases List.mem_cons.1 hmem with hmem | hmem
  · exact .inr ⟨oldDirectory, old, hold.located, hmem⟩
  · exact .inl ⟨newDirectory, new, hnew.located, List.mem_singleton.1 hmem⟩

theorem leadsTo_iff (h : d.SameDirectories d') : d.LeadsTo p names ↔ d'.LeadsTo p names :=
  exists_congr fun _ => exists_congr fun _ => and_congr_left' h.locate_eq_ok_iff

theorem ChangesBeside.refl (p : Path) (d : Disk) : ChangesBeside p d d :=
  ⟨[], ⟨fun _ => .rfl, fun _ _ => rfl⟩, nofun⟩

theorem ChangesBeside.trans (h : ChangesBeside p d d₁) (h' : ChangesBeside p d₁ d₂) :
    ChangesBeside p d d₂ := by
  obtain ⟨changed, hchange, hleads⟩ := h
  obtain ⟨changed', hchange', hleads'⟩ := h'
  refine ⟨_, hchange.trans hchange', fun names hmem => ?_⟩
  rcases List.mem_append.1 hmem with hmem | hmem
  · exact hleads names hmem
  · rw [leadsTo_iff hchange.directories, leadsTo_iff hchange.directories]
    exact hleads' names hmem

theorem ChangesBeside.wellFormed (h : ChangesBeside p d d') (hwf : d.WellFormed) :
    d'.WellFormed := by
  obtain ⟨changed, hchange, hleads⟩ := h
  refine hchange.wellFormed hwf fun names hmem => ?_
  have hparent : ∀ q, d.LeadsTo q names → d.node? names.dropLast = some .directory := by
    rintro q ⟨directory, name, hlocate, rfl⟩
    rw [List.dropLast_concat]
    exact hwf.node?_within hlocate
  rcases hleads names hmem with htarget | hsource
  · exact hparent _ htarget
  · exact hparent _ hsource

/-- Once the directories on the way are made, a save changes nothing but the two files. -/
theorem changesBeside_save (f : SnapshotFormat α) (s : α) (p : Path) (d : Disk) :
    ChangesBeside p (d.makeWays p.parents).2 (f.save s p d).2 := by
  rcases f.save_cases s p d with ⟨e, h, -⟩ | ⟨d₂, e, -, hwrite, -, h⟩ |
    ⟨d₂, d₃, -, hwrite, hrename, h⟩
  · rw [h]
    exact .refl p _
  · rw [h]
    exact changesBeside_of_write hwrite
  · rw [h]
    exact (changesBeside_of_write hwrite).trans (changesBeside_of_rename hrename)

/-- **What a save leaves is a disk on which one can save again.** -/
theorem wellFormed_save (hwf : d.WellFormed) : (f.save s p d).2.WellFormed :=
  (f.changesBeside_save s p d).wellFormed hwf.makeWays

/-! ## §3. What is found afterwards. -/

/-- A save that comes to its end has put its snapshot in place. -/
theorem found?_of_save (h : f.save s p d = (.ok (), d')) :
    d'.found? p = some (.file (f.encode s)) := by
  rcases f.save_cases s p d with ⟨e, h', -⟩ | ⟨d₂, e, -, -, -, h'⟩ |
    ⟨d₂, d₃, -, hwrite, hrename, h'⟩
  · rw [h] at h'
    cases h'
  · rw [h] at h'
    cases h'
  · rw [h] at h'
    cases h'
    obtain ⟨directory, name, htakes, hput⟩ := Disk.write_eq_ok_iff.1 hwrite
    have hsame := (Disk.filesChange_of_write htakes hput).directories
    refine Disk.found?_of_rename hrename (hsame.takesFile htakes).located ?_
    rw [hput, Disk.node?_put _ (by simp), if_pos rfl]

/-- A save that fails has changed nothing there but the directories on the way. -/
theorem found?_of_save_error {e : CacheFileError} (h : f.save s p d = (.error e, d')) :
    d'.found? p = (d.makeWays p.parents).2.found? p := by
  rcases f.save_cases s p d with ⟨e, h', -⟩ | ⟨d₂, e, -, hwrite, hrename, h'⟩ |
    ⟨d₂, d₃, -, -, -, h'⟩
  · rw [h] at h'
    cases h'
    rfl
  · rw [h] at h'
    cases h'
    obtain ⟨directory, name, htakes, hput⟩ := Disk.write_eq_ok_iff.1 hwrite
    exact Disk.found?_of_rename_error htakes hput hrename
  · rw [h] at h'
    cases h'

/-- **Saving is all or nothing.**  A save comes to its end exactly when the directories on the way can
be made and a file can be put at both paths.  After it did, loading gives the snapshot, or says that
its version is not the current one.  After a save that failed at any step, loading gives
what it gives once the directories on the way are made; it gives what it gave before the save when
the path does not go up, and when no directory was missing on its way.  A file that is not what it
was is one that the path leads to, or the path with extension `tmp`. -/
theorem save_allOrNothing (f : SnapshotFormat α) (s : α) (p : Path) (d : Disk)
    (hwf : d.WellFormed) :
    ∃ outcome d', f.save s p d = (outcome, d') ∧
      (outcome = .ok () ↔ (d.makeWays p.parents).1 = .ok () ∧
        (d.makeWays p.parents).2.CanTake (p.withExtension "tmp") ∧
        (d.makeWays p.parents).2.CanTake p) ∧
      (outcome = .ok () → f.load p d' =
        if f.version s = cacheVersion then .ok (some s)
        else .error (.versionMismatch cacheVersion (f.version s))) ∧
      (outcome ≠ .ok () → f.load p d' = f.load p (d.makeWays p.parents).2) ∧
      (outcome ≠ .ok () → Step.up ∉ p.steps ∨ d.locate p ≠ .error .notFound →
        f.load p d' = f.load p d) ∧
      (∀ names, d'.file? names ≠ d.file? names →
        d'.LeadsTo p names ∨ d'.LeadsTo (p.withExtension "tmp") names) := by
  have hfiles : ∀ names, (f.save s p d).2.file? names ≠ d.file? names →
      (f.save s p d).2.LeadsTo p names ∨
        (f.save s p d).2.LeadsTo (p.withExtension "tmp") names := by
    intro names hne
    have hgrown : Grown (fun _ => True) d (d.makeWays p.parents).2 :=
      Disk.grown_makeWays d fun _ _ _ _ _ _ => trivial
    obtain ⟨changed, hchange, hleads⟩ := f.changesBeside_save s p d
    rw [← hgrown.file?_eq] at hne
    rw [← leadsTo_iff hchange.directories, ← leadsTo_iff hchange.directories]
    exact hleads names (hchange.mem_of_file?_ne hne)
  have hends := save_eq_ok_iff (f := f) (s := s) (p := p) (d := d)
  generalize hsave : f.save s p d = saved at hfiles hends
  obtain ⟨outcome, d'⟩ := saved
  refine ⟨outcome, d', rfl, hends, ?_, ?_, ?_, hfiles⟩
  · rintro rfl
    exact load_of_encode (found?_of_save hsave)
  · intro hfailed
    cases outcome with
    | ok => exact absurd rfl hfailed
    | error e => exact load_congr (found?_of_save_error hsave)
  · intro hfailed hway
    cases outcome with
    | ok => exact absurd rfl hfailed
    | error e =>
      have hsame := (found?_of_save_error hsave).trans (Disk.found?_makeWays hwf hway)
      exact load_congr hsame

/-- A save that finds a directory beside its target fails and leaves the target as it was. -/
theorem save_besideDirectory :
    let d : Disk := ⟨(Table.empty.insert ["a.bin"] (.file [1])).insert ["a.tmp"] .directory⟩
    d.WellFormed ∧ (Snapshot.archive.save {} ⟨"a.bin"⟩ d).1 = .error (.io .isADirectory) ∧
      Snapshot.archive.load ⟨"a.bin"⟩ (Snapshot.archive.save {} ⟨"a.bin"⟩ d).2 =
        Snapshot.archive.load ⟨"a.bin"⟩ d := by
  intro d
  have hwf : d.WellFormed := by decide
  have hparents : (⟨"a.bin"⟩ : Path).parents = [] := by decide
  have hbeside : (⟨"a.bin"⟩ : Path).withExtension "tmp" = ⟨"a.tmp"⟩ := by decide
  have hlocate : d.locate ⟨"a.tmp"⟩ = .ok (.entry [] "a.tmp") :=
    (Disk.locate_eq (by simp) (by decide) (by decide)).trans rfl
  have hlookup : d.lookup [] "a.tmp" = .ok (some .directory) := rfl
  have hfails : (Snapshot.archive.save {} ⟨"a.bin"⟩ d).1 = .error (.io .isADirectory) := by
    simp only [save, hparents, Disk.makeWays, hbeside, Disk.write, hlocate, hlookup, ite_self]
  obtain ⟨outcome, d', hsave, -, -, -, hsame, -⟩ :=
    save_allOrNothing Snapshot.archive {} ⟨"a.bin"⟩ d hwf
  rw [hsave] at hfails ⊢
  refine ⟨hwf, hfails, hsame ?_ (.inl (by decide))⟩
  rintro rfl
  cases hfails

/-- When the path goes up and a directory on its way was missing, a failed save may leave something
to be found where nothing was: here the path comes back to the top directory once `b` is made. -/
theorem save_throughMissing :
    ¬ ∀ (s : Snapshot) (p : Path) (d : Disk), d.WellFormed →
      (Snapshot.archive.save s p d).1 ≠ .ok () →
      Snapshot.archive.load p (Snapshot.archive.save s p d).2 = Snapshot.archive.load p d := by
  intro h
  have hparents : (⟨"b/.."⟩ : Path).parents = [⟨"b"⟩] := by decide
  have hbeside : (⟨"b/.."⟩ : Path).withExtension "tmp" = ⟨"b/.."⟩ := by decide
  have hmissing : ({} : Disk).locate ⟨"b"⟩ = .ok (.entry [] "b") :=
    (Disk.locate_eq (by simp) (by decide) (by decide)).trans rfl
  have hmade : ({} : Disk).makeDirectory ⟨"b"⟩ =
      .ok ⟨Table.empty.insert ["b"] .directory⟩ := by
    rw [Disk.makeDirectory, hmissing]
    rfl
  have hbefore : ({} : Disk).locate ⟨"b/.."⟩ = .error .notFound :=
    (Disk.locate_eq (by simp) (by decide) (by decide)).trans rfl
  have hafter : (⟨Table.empty.insert ["b"] .directory⟩ : Disk).locate ⟨"b/.."⟩ =
      .ok (.directory []) := (Disk.locate_eq (by simp) (by decide) (by decide)).trans rfl
  have hsave : Snapshot.archive.save {} ⟨"b/.."⟩ {} =
      (.error (.io .isADirectory), ⟨Table.empty.insert ["b"] .directory⟩) := by
    simp only [save, hparents, Disk.makeWays, Disk.ensureDirectory, hmade, hbeside, Disk.write,
      hafter]
  have hfails : (Snapshot.archive.save {} ⟨"b/.."⟩ {}).1 ≠ .ok () := by
    rw [hsave]
    intro hok
    cases hok
  have hsame := h {} ⟨"b/.."⟩ {} (by decide) hfails
  rw [hsave, load_eq, load_eq, Disk.found?_of_locate_error hbefore,
    Disk.found?_of_locate hafter] at hsame
  cases hsame

end Notebook.SnapshotFormat
