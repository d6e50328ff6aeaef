/-
  Notebook.Proofs.Disk.Files — writing files and moving them.

  Writing or moving a file makes no directory and removes none, so every path ends where it ended
  before.  Something else is found only under the names that were written to or moved.

  Main results:
    * `Disk.write_eq_ok_iff`, `Disk.rename_eq_ok_iff` — what a write and a move do, and when,
    * `Disk.found?_of_rename` — after a move the content is found at the target,
    * `Disk.exists_rename_iff` — when a file that was written can be moved,
    * `Disk.found?_of_rename_error` — if it cannot, it is not found at the target, even under names
      that both paths lead to.
-/
import Notebook.Proofs.Disk.Ways

namespace Notebook.Disk

variable {d d' d'' : Disk} {source target p : Path} {names directory : List String} {name : String}
  {place : Place} {content : List UInt8} {e : IoError} {changed changed' : List (List String)}

/-! ## §1. Changed files. -/

/-- What stands under other names is as it was, and the directories are those that were there. -/
structure FilesChange (changed : List (List String)) (d d' : Disk) : Prop where
  directories : d.SameDirectories d'
  others : ∀ names, names ∉ changed → d'.node? names = d.node? names

theorem FilesChange.trans (h : FilesChange changed d d') (h' : FilesChange changed' d' d'') :
    FilesChange (changed ++ changed') d d'' where
  directories := h.directories.trans h'.directories
  others names hnot := by
    rw [List.mem_append, not_or] at hnot
    exact (h'.others names hnot.2).trans (h.others names hnot.1)

/-- A disk stays well-formed when each of the files is in a directory. -/
theorem FilesChange.wellFormed (h : FilesChange changed d d') (hwf : d.WellFormed)
    (hparents : ∀ names ∈ changed, d.node? names.dropLast = some .directory) : d'.WellFormed := by
  refine hwf.change (fun names => (h.directories names).1) fun names hnode => ?_
  by_cases hchanged : names ∈ changed
  · exact .inr (hparents names hchanged)
  · rw [h.others names hchanged] at hnode
    exact .inl hnode

theorem FilesChange.mem_of_file?_ne (h : FilesChange changed d d')
    (hne : d'.file? names ≠ d.file? names) : names ∈ changed := by
  by_contra hnot
  refine hne ?_
  rw [file?, h.others names hnot, file?]

/-! ## §2. Where a file can be put. -/

/-- The path leads to an entry that is a file or can become one. -/
structure TakesFile (d : Disk) (p : Path) (directory : List String) (name : String) : Prop where
  located : d.locate p = .ok (.entry directory name)
  meant : p.meansDirectory = false
  short : name.utf8ByteSize ≤ maxNameSize
  free : d.node? (directory ++ [name]) ≠ some .directory

/-- A file can be put where the path leads. -/
def CanTake (d : Disk) (p : Path) : Prop := ∃ directory name, d.TakesFile p directory name

theorem SameDirectories.takesFile (h : d.SameDirectories d')
    (htakes : d.TakesFile p directory name) : d'.TakesFile p directory name where
  located := h.locate_eq_ok_iff.1 htakes.located
  meant := htakes.meant
  short := htakes.short
  free := fun hthere => htakes.free ((h _).2 hthere)

/-! ## §3. Writing. -/

/-- **What a write does**, and where it can be done. -/
theorem write_eq_ok_iff : d.write p content = .ok d' ↔
    ∃ directory name, d.TakesFile p directory name ∧
      d' = d.put (directory ++ [name]) (.file content) := by
  constructor
  · intro h
    unfold write at h
    split at h
    · cases h
    · cases h
    · rename_i directory name hlocate
      split at h
      · cases h
      · rename_i hmeant
        split at h
        · cases h
        · cases h
        · rename_i found hnot hlookup
          cases h
          obtain ⟨hshort, hnode⟩ := lookup_eq_ok_iff.1 hlookup
          exact ⟨directory, name, ⟨hlocate, by simpa using hmeant, hshort,
            fun hthere => hnot (hnode.symm.trans hthere)⟩, rfl⟩
  · rintro ⟨directory, name, ⟨hlocate, hmeant, hshort, hfree⟩, rfl⟩
    rw [write, hlocate]
    simp only [hmeant, Bool.false_eq_true, if_false]
    rw [lookup_eq_ok_iff.2 ⟨hshort, rfl⟩]
    cases hnode : d.node? (directory ++ [name]) with
    | none => rfl
    | some node =>
      cases node with
      | file => rfl
      | directory => exact absurd hnode hfree

theorem filesChange_put (content : List UInt8) (hne : names ≠ [])
    (hnot : d.node? names ≠ some .directory) :
    FilesChange [names] d (d.put names (.file content)) where
  directories other := by
    rw [node?_put d hne]
    by_cases hother : other = names
    · rw [if_pos hother, hother]
      exact iff_of_false hnot nofun
    · rw [if_neg hother]
  others other hother := by
    rw [node?_put d hne, if_neg (List.mem_singleton.not.1 hother)]

/-! ## §4. Moving. -/

/-- What a move takes away and what it puts elsewhere. -/
def moved (d : Disk) (old new : List String) (content : List UInt8) : Disk :=
  ({ d with nodes := d.nodes.erase old }).put new (.file content)

theorem node?_moved {old new : List String} (hold : old ≠ []) (hnew : new ≠ []) :
    (d.moved old new content).node? names =
      if names = new then some (.file content)
      else if names = old then none
      else d.node? names := by
  rw [moved, node?_put _ hnew]
  refine ite_congr rfl (fun _ => rfl) fun _ => ?_
  unfold node?
  rw [Table.get?_erase]
  cases names with
  | nil => exact (if_neg hold.symm).symm
  | cons => rfl

/-- **What a move does**, and where it can be done. -/
theorem rename_eq_ok_iff : d.rename source target = .ok d' ↔
    ∃ oldDirectory old newDirectory new content, d.TakesFile source oldDirectory old ∧
      d.node? (oldDirectory ++ [old]) = some (.file content) ∧
      d.TakesFile target newDirectory new ∧
      d' = d.moved (oldDirectory ++ [old]) (newDirectory ++ [new]) content := by
  constructor
  · intro h
    unfold rename at h
    split at h
    · cases h
    · cases h
    · rename_i oldDirectory old newDirectory new hsource htarget
      split at h
      · cases h
      · cases h
      · cases h
      · cases h
      · rename_i content there hold hnew
        obtain ⟨hshort, hfile⟩ := lookup_eq_ok_iff.1 hold
        obtain ⟨hshort', hnode⟩ := lookup_eq_ok_iff.1 hnew
        split at h
        · cases h
        · rename_i hmeant
          split at h
          · cases h
          · rename_i hfree
            cases h
            rw [Bool.or_eq_true, not_or, Bool.not_eq_true, Bool.not_eq_true] at hmeant
            rw [← hnode] at hfree
            have hfree' : d.node? (oldDirectory ++ [old]) ≠ some .directory := by
              rw [hfile]
              exact nofun
            exact ⟨oldDirectory, old, newDirectory, new, content,
              ⟨hsource, hmeant.1, hshort, hfree'⟩, hfile, ⟨htarget, hmeant.2, hshort', hfree⟩, rfl⟩
    · cases h
  · rintro ⟨oldDirectory, old, newDirectory, new, content, hsource, hfile, htarget, rfl⟩
    rw [rename, hsource.located, htarget.located]
    dsimp only
    rw [lookup_eq_ok_iff.2 ⟨hsource.short, hfile⟩, lookup_eq_ok_iff.2 ⟨htarget.short, rfl⟩]
    dsimp only
    rw [hsource.meant, htarget.meant, if_neg (by decide), if_neg htarget.free]
    rfl

theorem filesChange_moved (content : List UInt8) {old new : List String} (hold : old ≠ [])
    (hnew : new ≠ []) (hfile : d.node? old ≠ some .directory)
    (hnot : d.node? new ≠ some .directory) :
    FilesChange [old, new] d (d.moved old new content) where
  directories other := by
    rw [node?_moved hold hnew]
    by_cases hother : other = new
    · rw [if_pos hother, hother]
      exact iff_of_false hnot nofun
    · rw [if_neg hother]
      by_cases hother' : other = old
      · rw [if_pos hother', hother']
        exact iff_of_false hfile nofun
      · rw [if_neg hother']
  others other hother := by
    simp only [List.mem_cons, List.not_mem_nil, or_false, not_or] at hother
    rw [node?_moved hold hnew, if_neg hother.2, if_neg hother.1]

/-- **After a move the content is found at the target.** -/
theorem found?_of_rename (h : d.rename source target = .ok d')
    (hsource : d.locate source = .ok (.entry directory name))
    (hfile : d.node? (directory ++ [name]) = some (.file content)) :
    d'.found? target = some (.file content) := by
  obtain ⟨oldDirectory, old, newDirectory, new, content', hold, hfile', hnew, rfl⟩ :=
    rename_eq_ok_iff.1 h
  have hplace := hold.located
  rw [hsource] at hplace
  cases hplace
  rw [hfile] at hfile'
  cases hfile'
  have hchange := filesChange_moved content (by simp) (by simp) hold.free hnew.free
  have hlookup : (d.moved (directory ++ [name]) (newDirectory ++ [new]) content).lookup
      newDirectory new = .ok (some (.file content)) := by
    refine lookup_eq_ok_iff.2 ⟨hnew.short, ?_⟩
    rw [node?_moved (by simp) (by simp), if_pos rfl]
  rw [found?_of_locate (hchange.directories.locate_eq_ok_iff.1 hnew.located)]
  simp only [nodeAt, hlookup, hnew.meant, Bool.false_eq_true, if_false]

/-! ## §5. Writing and then moving. -/

section

variable (htakes : d.TakesFile source directory name)
  (hwritten : d' = d.put (directory ++ [name]) (.file content))

include htakes hwritten

theorem filesChange_of_write : FilesChange [directory ++ [name]] d d' :=
  hwritten ▸ filesChange_put content (by simp) htakes.free

/-- A file that was written can be moved to where a file can be put. -/
theorem exists_rename_iff : (∃ d'', d'.rename source target = .ok d'') ↔ d.CanTake target := by
  have hsame := (filesChange_of_write htakes hwritten).directories
  constructor
  · rintro ⟨d'', h⟩
    obtain ⟨_, _, newDirectory, new, _, -, -, hnew, -⟩ := rename_eq_ok_iff.1 h
    exact ⟨newDirectory, new, hsame.symm.takesFile hnew⟩
  · rintro ⟨newDirectory, new, hnew⟩
    have hfile : d'.node? (directory ++ [name]) = some (.file content) := by
      rw [hwritten, node?_put d (by simp), if_pos rfl]
    exact ⟨_, rename_eq_ok_iff.2 ⟨directory, name, newDirectory, new, content,
      hsame.takesFile htakes, hfile, hsame.takesFile hnew, rfl⟩⟩

/-- **A file that was written and could not be moved is not found at the target.**  Where both
paths lead to the same names, the move fails only because a directory is meant, and behind a slash
no file is found, before or after. -/
theorem found?_of_rename_error (h : d'.rename source target = .error e) :
    d'.found? target = d.found? target := by
  have hchange := filesChange_of_write htakes hwritten
  have hnot : ¬ d.CanTake target := by
    rw [← exists_rename_iff htakes hwritten, h]
    exact fun hmoved => hmoved.elim nofun
  cases htarget : d.locate target with
  | error e' =>
    rw [found?_of_locate_error htarget]
    cases hafter : d'.locate target with
    | error e'' => exact found?_of_locate_error hafter
    | ok place =>
      rw [hchange.directories.locate_eq_ok_iff.2 hafter] at htarget
      cases htarget
  | ok place =>
    have hafter := hchange.directories.locate_eq_ok_iff.1 htarget
    rw [found?_of_locate htarget, found?_of_locate hafter]
    cases place with
    | directory => rfl
    | entry other name' =>
      by_cases hsame : other ++ [name'] = directory ++ [name]
      · obtain ⟨rfl, hname⟩ := List.append_inj' hsame rfl
        cases hname
        have hmeant : target.meansDirectory = true := by
          by_contra hmeant
          exact hnot ⟨other, name, htarget, by simpa using hmeant, htakes.short, htakes.free⟩
        have hlookup : d'.lookup other name = .ok (some (.file content)) := by
          refine lookup_eq_ok_iff.2 ⟨htakes.short, ?_⟩
          rw [hwritten, node?_put d (by simp), if_pos rfl]
        rw [nodeAt, hlookup, nodeAt, lookup_eq_ok_iff.2 ⟨htakes.short, rfl⟩, hmeant]
        cases hnode : d.node? (other ++ [name]) with
        | none => rfl
        | some node =>
          cases node with
          | file => rfl
          | directory => exact absurd hnode htakes.free
      · have hlookup : d'.lookup other name' = d.lookup other name' := by
          rw [lookup, hchange.others _ (List.mem_singleton.not.2 hsame), lookup]
        rw [nodeAt, hlookup, nodeAt]

end

end Notebook.Disk
