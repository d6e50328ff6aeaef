/-
  Notebook.Cache.Engine — one computation at a time for each key.

  A call that finds nothing takes the lock of its key before it looks again and computes, so that
  whoever else wants the same result waits for it instead of computing it, too.  The locks stand in
  a table.  The table holds each of them, and so does every call that has come for it; the call
  that has computed takes its lock out again, unless others still hold it.
-/
import Notebook.Cache.Store

namespace Notebook

/-! ## §1. Locks. -/

/-- The lock of a key. -/
structure Lock where
  /-- Which lock it is. -/
  serial : Nat
  /-- How many hold it: the table, and the calls that have come for it. -/
  holders : Nat

/-- A cache with the locks of the keys that are being computed. -/
structure Engine where
  cache : Cache := {}
  locks : Table ScopeId (Table Digest Lock) := .empty
  /-- How many locks there have been. -/
  made : Nat := 0

namespace Engine

/-- The lock of a key. -/
def lock? (e : Engine) (scope : ScopeId) (digest : Digest) : Option Lock :=
  (e.locks.get? scope).bind fun shelf => shelf.get? digest

/-- Puts a lock in its place, over whatever is there. -/
def putLock (e : Engine) (scope : ScopeId) (digest : Digest) (lock : Lock) : Engine :=
  let shelf := (e.locks.get? scope).getD .empty
  { e with locks := e.locks.insert scope (shelf.insert digest lock) }

/-- Takes the lock of a key out of the table. -/
def dropLock (e : Engine) (scope : ScopeId) (digest : Digest) : Engine :=
  { e with locks := e.locks.modify scope fun shelf => shelf.erase digest }

/-- A call comes for the lock of its key, a new one if there is none.  Which one it got. -/
def acquire (e : Engine) (scope : ScopeId) (digest : Digest) : Nat × Engine :=
  match e.lock? scope digest with
  | some lock => (lock.serial, e.putLock scope digest { lock with holders := lock.holders + 1 })
  | none => (e.made, { e.putLock scope digest ⟨e.made, 2⟩ with made := e.made + 1 })

/-- A call goes, and holds its lock no more. -/
def leave (e : Engine) (scope : ScopeId) (digest : Digest) (serial : Nat) : Engine :=
  match e.lock? scope digest with
  | some lock =>
    if lock.serial = serial then
      e.putLock scope digest { lock with holders := lock.holders - 1 }
    else e
  | none => e

/-- A call that has computed takes its lock out, if that is still in its place and held by nobody
but the table and the call itself. -/
def release (e : Engine) (scope : ScopeId) (digest : Digest) (serial : Nat) : Engine :=
  match e.lock? scope digest with
  | some lock =>
    if lock.serial = serial ∧ lock.holders ≤ 2 then e.dropLock scope digest else e
  | none => e

/-! ## §2. Computing under a lock. -/

/-- The stored result, or else the computed one, which is stored when it is a success. -/
def getOrCompute (e : Engine) (scope : ScopeId) (strategy : Strategy)
    (compute : Except Error Json) : Cache.Served × Engine :=
  match e.cache.lookupOrMiss scope strategy with
  | (some hit, cache) => (⟨.ok hit.result, false⟩, { e with cache })
  | (none, cache) =>
    let (serial, e) := acquire { e with cache } scope strategy.digest
    match e.cache.lookupOrMiss scope strategy with
    | (some hit, cache) =>
      (⟨.ok hit.result, false⟩, leave { e with cache } scope strategy.digest serial)
    | (none, cache) =>
      let cache := match compute with
        | .ok value => cache.store scope strategy value .zero
        | .error _ => cache
      let e := release { e with cache } scope strategy.digest serial
      (⟨compute, true⟩, e.leave scope strategy.digest serial)

end Engine

end Notebook
