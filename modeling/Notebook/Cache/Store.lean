/-
  Notebook.Cache.Store — results by scope and digest.

  An entry is kept under its scope and the digest of its strategy, and remembers the whole strategy:
  asked for by the other kind of strategy under the same digest it is an inconsistency, not a hit.
  Every look-up counts as a hit or as a miss.  Beside the entries stand, for impure units, the
  traces of their latest runs.
-/
import Notebook.Identity.Purity

namespace Notebook

/-! ## §1. Entries. -/

/-- A cached result. -/
structure CacheEntry where
  strategy : Strategy
  result : Json
  /-- Digest of the effects seen while the result was computed. -/
  effects : Digest
  /-- Seconds on the clock when the entry was made. -/
  createdAt : Nat

/-- How often the cache was asked and filled. -/
structure CacheStats where
  hits : Nat := 0
  misses : Nat := 0
  stores : Nat := 0
deriving DecidableEq, Repr

/-- The cache. -/
structure Cache where
  entries : Table ScopeId (Table Digest CacheEntry) := .empty
  /-- Traces of past runs of impure units by structural identity, the latest last. -/
  paths : Table ScopeId (Table Digest (List Trace)) := .empty
  /-- Whether identities include the versions of modules. -/
  pinned : Bool := false
  stats : CacheStats := {}
  /-- The time that new entries carry. -/
  clock : Nat := 0

namespace Cache

/-- How many traces are kept for one unit. -/
def maxPaths : Nat := 8

/-- The entry under a scope and a digest, whatever its strategy. -/
def entry? (c : Cache) (scope : ScopeId) (digest : Digest) : Option CacheEntry :=
  (c.entries.get? scope).bind fun shelf => shelf.get? digest

/-- The traces of a unit's past runs, the latest last. -/
def paths? (c : Cache) (scope : ScopeId) (unit : Digest) : List Trace :=
  ((c.paths.get? scope).bind fun shelf => shelf.get? unit).getD []

/-- How many entries there are. -/
def size (c : Cache) : Nat := c.entries.total Table.size

/-- Whether there are no entries. -/
def isEmpty (c : Cache) : Bool := c.size == 0

/-- Counts a hit. -/
def countHit (c : Cache) : Cache := { c with stats.hits := c.stats.hits + 1 }

/-- Counts a miss. -/
def countMiss (c : Cache) : Cache := { c with stats.misses := c.stats.misses + 1 }

/-- Puts an entry in its place, over whatever is there. -/
def put (c : Cache) (scope : ScopeId) (entry : CacheEntry) : Cache :=
  let shelf := (c.entries.get? scope).getD .empty
  { c with entries := c.entries.insert scope (shelf.insert entry.strategy.digest entry) }

/-! ## §2. Looking up and storing. -/

/-- The entry that was stored under just this strategy. -/
def lookup (c : Cache) (scope : ScopeId) (strategy : Strategy) :
    Except Error (Option CacheEntry) × Cache :=
  match c.entry? scope strategy.digest with
  | some entry =>
    if entry.strategy = strategy then (.ok (some entry), c.countHit)
    else (.error (.cacheKeyMismatch scope.text strategy.kind entry.strategy.kind), c.countMiss)
  | none => (.ok none, c.countMiss)

/-- Like `lookup`, an inconsistency counting as a miss. -/
def lookupOrMiss (c : Cache) (scope : ScopeId) (strategy : Strategy) :
    Option CacheEntry × Cache :=
  match c.lookup scope strategy with
  | (.ok found, c) => (found, c)
  | (.error _, c) => (none, c)

/-- Stores a result, over any entry with its key. -/
def store (c : Cache) (scope : ScopeId) (strategy : Strategy) (result : Json) (effects : Digest) :
    Cache :=
  let c := c.put scope ⟨strategy, result, effects, c.clock⟩
  { c with stats.stores := c.stats.stores + 1 }

/-- Forgets everything of one scope; the number of entries dropped. -/
def invalidate (c : Cache) (scope : ScopeId) : Nat × Cache :=
  (((c.entries.get? scope).map Table.size).getD 0,
    { c with entries := c.entries.erase scope, paths := c.paths.erase scope })

/-- Forgets every entry and every trace; the counters stay. -/
def clear (c : Cache) : Cache := { c with entries := .empty, paths := .empty }

/-! ## §3. Computing what is missing. -/

/-- What a call through the cache gave, and whether it had to compute. -/
structure Served where
  result : Except Error Json
  computed : Bool

/-- The stored result, or else the computed one, which is stored when it is a success.  The key is
looked up once more before anything is computed, so a miss is counted twice. -/
def getOrCompute (c : Cache) (scope : ScopeId) (strategy : Strategy)
    (compute : Except Error Json) : Served × Cache :=
  match c.lookupOrMiss scope strategy with
  | (some hit, c) => (⟨.ok hit.result, false⟩, c)
  | (none, c) =>
    match c.lookupOrMiss scope strategy with
    | (some hit, c) => (⟨.ok hit.result, false⟩, c)
    | (none, c) =>
      match compute with
      | .ok value => (⟨.ok value, true⟩, c.store scope strategy value .zero)
      | .error e => (⟨.error e, true⟩, c)

/-! ## §4. Calls of units. -/

/-- The result of the latest of the given traces, tried in order, that still holds and is stored.
Also tells whether any of them was looked up. -/
def servePath [HashFunction] (env : Environment) (scope : ScopeId) (u : WorkUnit) :
    List Trace → Cache → Option CacheEntry × Bool × Cache
  | [], c => (none, false, c)
  | t :: earlier, c =>
    if t.all env.stillHolds then
      match c.lookupOrMiss scope (executionPath u t) with
      | (some hit, c) => (some hit, true, c)
      | (none, c) =>
        let (found, _, c) := servePath env scope u earlier c
        (found, true, c)
    else servePath env scope u earlier c

/-- Records the trace of a run as the latest one; beyond eight the oldest is dropped. -/
def recordPath (c : Cache) (scope : ScopeId) (unit : Digest) (t : Trace) : Cache :=
  let traces := (c.paths? scope unit).filter (· ≠ t) ++ [t]
  let traces := if maxPaths < traces.length then traces.drop 1 else traces
  let shelf := (c.paths.get? scope).getD .empty
  { c with paths := c.paths.insert scope (shelf.insert unit traces) }

variable [HashFunction]

/-- A call of an impure unit: served when all operations of a recorded run still hold, the latest
such run first, and otherwise run, stored and recorded. -/
def callByPath (c : Cache) (scope : ScopeId) (u : WorkUnit) (env : Environment)
    (compute : Except Error (Json × Trace)) : Served × Cache :=
  match servePath env scope u (c.paths? scope u.identity).reverse c with
  | (some hit, _, c) => (⟨.ok hit.result, false⟩, c)
  | (none, lookedUp, c) =>
    let c := if lookedUp then c else c.countMiss
    match compute with
    | .error e => (⟨.error e, true⟩, c)
    | .ok (value, t) =>
      let c := c.store scope (executionPath u t) value (Trace.digest t)
      (⟨.ok value, true⟩, c.recordPath scope u.identity t)

/-- A call of a unit.  A pure one goes by its content, an impure one by its recorded runs; a unit
without an identity is always run. -/
def call (c : Cache) (scope : ScopeId) (u : WorkUnit) (env : Environment)
    (compute : Except Error (Json × Trace)) : Served × Cache :=
  match purity env c.pinned u with
  | .ok (.pure d) => c.getOrCompute scope (.content d) (compute.map (·.1))
  | .ok (.impure _) => c.callByPath scope u env compute
  | .error _ => (⟨compute.map (·.1), true⟩, c)

end Cache

end Notebook
