/-
  Notebook.Cache.File — snapshots on disk.

  Saving makes the directories on the way, writes the whole snapshot beside its destination under
  the extension `tmp`, and moves it there in one step, so that the file at the destination is
  always a whole snapshot.  Loading finds nothing, a snapshot of the current version, or an error.
  How a snapshot becomes bytes, and what else it holds besides its version, is a matter of the
  format; the cache keeps its snapshots as archives.
-/
import Notebook.Cache.Archive
import Notebook.Disk.Basic

namespace Notebook

/-- Why a cache file could not be saved or loaded. -/
inductive CacheFileError where
  | io (cause : IoError)
  | versionMismatch (expected found : Nat)
  /-- The file is not an archive. -/
  | notAnArchive
deriving DecidableEq, Repr

namespace CacheFileError

/-- The wording of a failure. -/
def message : CacheFileError → String
  | .io cause => s!"cache IO error: {cause.message}"
  | .versionMismatch expected found =>
    s!"cache version mismatch: expected {expected}, found {found}"
  | .notAnArchive => "cache deserialize error: not an archive"

end CacheFileError

/-! ## §1. Any format. -/

/-- How snapshots are written as bytes.  Reading undoes writing. -/
structure SnapshotFormat (α : Type) where
  version : α → Nat
  encode : α → List UInt8
  decode? : List UInt8 → Option α
  decode?_encode : ∀ s, decode? (encode s) = some s

namespace SnapshotFormat

variable {α : Type}

/-- Saves a snapshot; the disk afterwards, also when a step failed. -/
def save (f : SnapshotFormat α) (s : α) (p : Path) (d : Disk) :
    Except CacheFileError Unit × Disk :=
  match d.makeWays p.parents with
  | (.error e, d) => (.error (.io e), d)
  | (.ok (), d) =>
    match d.write (p.withExtension "tmp") (f.encode s) with
    | .error e => (.error (.io e), d)
    | .ok d =>
      match d.rename (p.withExtension "tmp") p with
      | .error e => (.error (.io e), d)
      | .ok d => (.ok (), d)

/-- Loads a snapshot of the current version, if there is a file. -/
def load (f : SnapshotFormat α) (p : Path) (d : Disk) : Except CacheFileError (Option α) :=
  if d.pathExists p then
    match d.readBytes p with
    | .error e => .error (.io e)
    | .ok bytes =>
      match f.decode? bytes with
      | none => .error .notAnArchive
      | some s =>
        if f.version s = cacheVersion then .ok (some s)
        else .error (.versionMismatch cacheVersion (f.version s))
  else .ok none

end SnapshotFormat

/-! ## §2. Archives. -/

namespace Snapshot

/-- Snapshots of the cache are kept as archives. -/
def archive : SnapshotFormat Snapshot :=
  ⟨version, Archive.ofSnapshot, Archive.toSnapshot?, Archive.toSnapshot?_ofSnapshot⟩

/-- Saves a snapshot as an archive. -/
def save (s : Snapshot) (p : Path) (d : Disk) : Except CacheFileError Unit × Disk :=
  archive.save s p d

/-- Loads a snapshot from an archive. -/
def load (p : Path) (d : Disk) : Except CacheFileError (Option Snapshot) := archive.load p d

/-- Drops the file of a cache, if there is one. -/
def drop (p : Path) (d : Disk) : Except CacheFileError Disk :=
  if d.pathExists p then (d.remove p).mapError .io else .ok d

end Snapshot

end Notebook
