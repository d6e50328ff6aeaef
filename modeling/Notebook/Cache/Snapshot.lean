/-
  Notebook.Cache.Snapshot — the entries of a cache as records that can be kept in a file.

  A record splits the strategy into its kind and its digest and holds the result as JSON text.
  Restoring adds the records whose keys the cache lacks and leaves its own entries alone; a record
  whose text no longer reads as JSON is skipped.
-/
import Notebook.Cache.Store
import Notebook.Json.Parser

namespace Notebook

/-! ## §1. Records. -/

/-- The current version of the file format. -/
def cacheVersion : Nat := 1

/-- One entry as it is kept. -/
structure CacheRecord where
  scope : String
  /-- Whether the strategy is that of an execution path. -/
  isPath : Bool
  digest : Digest
  resultText : String
  effects : Digest
  createdAt : Nat
deriving DecidableEq

/-- The entries of a cache under a format version. -/
structure Snapshot where
  version : Nat := cacheVersion
  records : List CacheRecord := []
deriving DecidableEq

namespace CacheRecord

/-- The record of an entry. -/
def ofEntry (scope : ScopeId) (e : CacheEntry) : CacheRecord :=
  ⟨scope.text, !e.strategy.isContent, e.strategy.digest, e.result.text, e.effects, e.createdAt⟩

/-- The strategy of the entry. -/
def strategy (r : CacheRecord) : Strategy := if r.isPath then .path r.digest else .content r.digest

/-- The entry that a record stands for, when its result can be read. -/
def toEntry? (r : CacheRecord) : Option (ScopeId × CacheEntry) :=
  (Json.read? r.resultText).map fun result =>
    (⟨r.scope⟩, ⟨r.strategy, result, r.effects, r.createdAt⟩)

end CacheRecord

namespace Cache

/-! ## §2. Taking and restoring snapshots. -/

/-- The records of all entries, by scope and digest. -/
def records (c : Cache) : List CacheRecord :=
  c.entries.entries.flatMap fun (scope, shelf) => shelf.values.map (CacheRecord.ofEntry scope)

/-- A snapshot of all entries. -/
def snapshot (c : Cache) : Snapshot := { records := c.records }

/-- Adds one record, unless its key is taken or its result cannot be read. -/
def restoreRecord (c : Cache) (r : CacheRecord) : Bool × Cache :=
  match r.toEntry? with
  | none => (false, c)
  | some (scope, entry) =>
    match c.entry? scope entry.strategy.digest with
    | some _ => (false, c)
    | none => (true, c.put scope entry)

/-- Adds records in turn; how many were added. -/
def restoreRecords (c : Cache) : List CacheRecord → Nat × Cache
  | [] => (0, c)
  | r :: rest =>
    let (added, c) := c.restoreRecord r
    let (count, c) := c.restoreRecords rest
    (count + added.toNat, c)

/-- Adds the entries of a snapshot whose keys are missing; how many were added. -/
def restore (c : Cache) (s : Snapshot) : Nat × Cache := c.restoreRecords s.records

end Cache

end Notebook
