/-
  Notebook.Proofs.Cache.Store — what is found after what was stored.

  Looking up counts, and changes nothing else.  Storing puts one entry in its place, and recording a
  run adds one trace to those of its unit.  Nothing else in this development opens these operations.

  Main results:
    * `Cache.lookupOrMiss_eq` — what a look-up finds,
    * `Cache.getOrCompute_spec` — when something is computed,
    * `Cache.entry?_store` — a stored result is found under its key, and the others where they were,
    * `Cache.paths?_recordPath` — a recorded trace is the latest of its unit.
-/
import Notebook.Cache.Store

namespace Notebook.Cache

variable {c : Cache} {scope scope' : ScopeId} {strategy : Strategy} {digest unit unit' : Digest}

theorem entry?_put (c : Cache) (scope scope' : ScopeId) (entry : CacheEntry) (digest : Digest) :
    entry? (c.put scope entry) scope' digest =
      if scope' = scope ∧ digest = entry.strategy.digest then some entry
      else c.entry? scope' digest := by
  have hget : entry? (c.put scope entry) scope' digest =
      ((c.entries.insert scope (((c.entries.get? scope).getD .empty).insert
        entry.strategy.digest entry)).get? scope').bind fun shelf => shelf.get? digest := rfl
  rw [hget, Table.get?_insert]
  by_cases hscope : scope' = scope
  -- on the shelf of its own scope the new entry hides an old one under the same digest
  · subst hscope
    rw [if_pos rfl, Option.bind_some, Table.get?_insert]
    by_cases hdigest : digest = entry.strategy.digest
    · simp [hdigest]
    · unfold entry?
      cases c.entries.get? scope' <;> simp [hdigest]
  · simp [hscope, entry?]

/-- What is found under a key after a result was stored. -/
theorem entry?_store (c : Cache) (scope scope' : ScopeId) (strategy : Strategy) (result : Json)
    (effects digest : Digest) : entry? (c.store scope strategy result effects) scope' digest =
      if scope' = scope ∧ digest = strategy.digest then some ⟨strategy, result, effects, c.clock⟩
      else c.entry? scope' digest :=
  entry?_put c scope scope' ⟨strategy, result, effects, c.clock⟩ digest

/-- What is found after a scope was forgotten. -/
theorem entry?_invalidate (c : Cache) (scope scope' : ScopeId) (digest : Digest) :
    entry? (c.invalidate scope').2 scope digest =
      if scope = scope' then none else c.entry? scope digest := by
  have hget : entry? (c.invalidate scope').2 scope digest =
      ((c.entries.erase scope').get? scope).bind fun shelf => shelf.get? digest := rfl
  rw [hget, Table.get?_erase]
  split
  · rfl
  · rfl

/-- It was there before. -/
theorem entry?_of_invalidate {entry : CacheEntry}
    (h : entry? (c.invalidate scope').2 scope digest = some entry) :
    c.entry? scope digest = some entry := by
  rw [entry?_invalidate] at h
  split at h
  · cases h
  · exact h

/-- The traces of each unit after a scope was forgotten. -/
theorem paths?_invalidate (c : Cache) (scope scope' : ScopeId) (unit : Digest) :
    paths? (c.invalidate scope').2 scope unit =
      if scope = scope' then [] else c.paths? scope unit := by
  have hget : paths? (c.invalidate scope').2 scope unit =
      (((c.paths.erase scope').get? scope).bind fun shelf => shelf.get? unit).getD [] := rfl
  rw [hget, Table.get?_erase]
  split
  · rfl
  · rfl

/-- What a look-up finds: the entry that was stored under just the given strategy. -/
def hit? (c : Cache) (scope : ScopeId) (strategy : Strategy) : Option CacheEntry :=
  c.entry? scope strategy.digest |>.filter fun e => e.strategy = strategy

theorem hit?_eq_some {e : CacheEntry} : c.hit? scope strategy = some e ↔
    c.entry? scope strategy.digest = some e ∧ e.strategy = strategy := by
  unfold hit?
  rw [Option.filter_eq_some_iff, decide_eq_true_iff]

/-- It is what the look-up returns. -/
theorem lookup_eq_some {e : CacheEntry} :
    (c.lookup scope strategy).1 = .ok (some e) ↔ c.hit? scope strategy = some e := by
  rw [hit?_eq_some]
  unfold lookup
  cases c.entry? scope strategy.digest with
  | none => simp
  | some found =>
    by_cases heq : found.strategy = strategy
    · simp only [heq, if_true, Except.ok.injEq, Option.some.injEq]
      exact ⟨fun h => ⟨h, h ▸ heq⟩, fun h => h.1⟩
    · simp only [heq, if_false, reduceCtorEq, Option.some.injEq, false_iff]
      rintro ⟨rfl, hsame⟩
      exact heq hsame

theorem lookup_eq_none :
    (c.lookup scope strategy).1 = .ok none ↔ c.entry? scope strategy.digest = none := by
  unfold lookup
  cases c.entry? scope strategy.digest with
  | none => simp
  | some found => by_cases heq : found.strategy = strategy <;> simp [heq]

/-- An entry of another strategy is an inconsistency. -/
theorem lookup_eq_error {error : Error} : (c.lookup scope strategy).1 = .error error ↔
    ∃ e, c.entry? scope strategy.digest = some e ∧ e.strategy ≠ strategy ∧
      error = .cacheKeyMismatch scope.text strategy.kind e.strategy.kind := by
  unfold lookup
  cases c.entry? scope strategy.digest with
  | none => simp
  | some found =>
    by_cases heq : found.strategy = strategy
    · simp [heq]
    · simp [heq, eq_comm (a := error)]

theorem hit?_eq_none : c.hit? scope strategy = none ↔
    ( c.entry? scope strategy.digest).map (·.strategy) ≠ some strategy := by
  unfold hit?
  cases c.entry? scope strategy.digest <;> simp [Option.filter]

theorem hit?_store_self (c : Cache) (scope : ScopeId) (strategy : Strategy) (result : Json)
    (effects : Digest) : (c.store scope strategy result effects).hit? scope strategy =
      some ⟨strategy, result, effects, c.clock⟩ := by
  rw [hit?_eq_some, entry?_store, if_pos ⟨rfl, rfl⟩]
  exact ⟨rfl, rfl⟩

theorem hit?_store_of_ne {strategy' : Strategy} {result : Json} {effects : Digest}
    (h : ¬ (scope' = scope ∧ strategy'.digest = strategy.digest)) :
    (c.store scope strategy result effects).hit? scope' strategy' = c.hit? scope' strategy' := by
  unfold hit?
  rw [entry?_store, if_neg h]

/-- A look-up counts, and changes nothing else. -/
theorem lookup_snd (c : Cache) (scope : ScopeId) (strategy : Strategy) :
    ∃ stats, (c.lookup scope strategy).2 = { c with stats } := by
  unfold lookup
  split
  · split
    · exact ⟨_, rfl⟩
    · exact ⟨_, rfl⟩
  · exact ⟨_, rfl⟩

theorem lookupOrMiss_eq (c : Cache) (scope : ScopeId) (strategy : Strategy) :
    ∃ stats, c.lookupOrMiss scope strategy = (c.hit? scope strategy, { c with stats }) := by
  unfold lookupOrMiss lookup hit?
  cases c.entry? scope strategy.digest with
  | none => exact ⟨_, rfl⟩
  | some e =>
    dsimp only
    by_cases heq : e.strategy = strategy
    · rw [if_pos heq]
      exact ⟨_, Prod.ext (by simp [Option.filter, heq]) rfl⟩
    · rw [if_neg heq]
      exact ⟨_, Prod.ext (by simp [Option.filter, heq]) rfl⟩

/-- Stores a result, if it is a success. -/
def keep (c : Cache) (scope : ScopeId) (strategy : Strategy) : Except Error Json → Cache
  | .ok value => c.store scope strategy value .zero
  | .error _ => c

theorem entry?_keep (c : Cache) (scope scope' : ScopeId) (strategy : Strategy)
    (compute : Except Error Json) (digest : Digest) :
    entry? (c.keep scope strategy compute) scope' digest =
      if scope' = scope ∧ digest = strategy.digest then
        (compute.toOption.map fun value => ⟨strategy, value, .zero, c.clock⟩).or
          ( c.entry? scope' digest)
      else c.entry? scope' digest := by
  cases compute with
  | ok value => exact entry?_store c scope scope' strategy value .zero digest
  | error e => exact (ite_self _).symm

/-- What is stored is served, and what is not is computed, and kept if it is a success. -/
theorem getOrCompute_spec (c : Cache) (scope : ScopeId) (strategy : Strategy)
    (compute : Except Error Json) : ∃ stats, c.getOrCompute scope strategy compute =
      match c.hit? scope strategy with
      | some e => (⟨.ok e.result, false⟩, { c with stats })
      | none => (⟨compute, true⟩, keep { c with stats } scope strategy compute) := by
  unfold getOrCompute
  obtain ⟨stats, heq⟩ := c.lookupOrMiss_eq scope strategy
  rw [heq]
  cases hfound : c.hit? scope strategy with
  | some e => exact ⟨stats, rfl⟩
  | none =>
    dsimp only
    -- the second look-up finds what the first one found, but for the counters
    obtain ⟨stats', heq'⟩ := lookupOrMiss_eq { c with stats } scope strategy
    rw [heq', show hit? { c with stats } scope strategy = none from hfound]
    cases compute with
    | ok value => exact ⟨stats', rfl⟩
    | error e => exact ⟨stats', rfl⟩

theorem getOrCompute_fst (c : Cache) (scope : ScopeId) (strategy : Strategy)
    (compute : Except Error Json) : (c.getOrCompute scope strategy compute).1 =
      match c.hit? scope strategy with
      | some e => ⟨.ok e.result, false⟩
      | none => ⟨compute, true⟩ := by
  obtain ⟨stats, heq⟩ := c.getOrCompute_spec scope strategy compute
  rw [heq]
  cases c.hit? scope strategy <;> rfl

/-- What is found after a call: a success that was computed, and else what was there before. -/
theorem entry?_getOrCompute (c : Cache) (scope scope' : ScopeId) (strategy : Strategy)
    (compute : Except Error Json) (digest : Digest) :
    entry? (c.getOrCompute scope strategy compute).2 scope' digest =
      if c.hit? scope strategy = none ∧ scope' = scope ∧ digest = strategy.digest then
        (compute.toOption.map fun value => ⟨strategy, value, .zero, c.clock⟩).or
          ( c.entry? scope' digest)
      else c.entry? scope' digest := by
  obtain ⟨stats, heq⟩ := c.getOrCompute_spec scope strategy compute
  rw [heq]
  cases c.hit? scope strategy with
  | some e => rfl
  | none =>
    simp only [true_and]
    exact entry?_keep { c with stats } scope scope' strategy compute digest

/-- Traces with one more as the latest; beyond eight the oldest is dropped. -/
def withLatest (ts : List Trace) (t : Trace) : List Trace :=
  let traces := ts.filter (· ≠ t) ++ [t]
  if maxPaths < traces.length then traces.drop 1 else traces

theorem mem_withLatest {ts : List Trace} {s t : Trace} (h : s ∈ withLatest ts t) :
    s = t ∨ s ∈ ts := by
  have hs : s ∈ ts.filter (· ≠ t) ++ [t] := by
    unfold withLatest at h
    dsimp only at h
    split at h
    · exact List.mem_of_mem_drop h
    · exact h
  rcases List.mem_append.1 hs with hs | hs
  · exact .inr (List.mem_filter.1 hs).1
  · exact .inl (List.mem_singleton.1 hs)

/-- The traces of each unit after a run was recorded. -/
theorem paths?_recordPath (c : Cache) (scope scope' : ScopeId) (unit unit' : Digest) (t : Trace) :
    (c.recordPath scope unit t).paths? scope' unit' =
      if scope' = scope ∧ unit' = unit then withLatest (c.paths? scope unit) t
      else c.paths? scope' unit' := by
  unfold recordPath
  extract_lets traces kept shelf
  unfold paths?
  dsimp only
  rw [Table.get?_insert]
  by_cases hscope : scope' = scope
  · subst hscope
    rw [if_pos rfl, Option.bind_some, Table.get?_insert]
    by_cases hunit : unit' = unit
    · subst hunit
      rw [if_pos rfl, if_pos ⟨rfl, rfl⟩]
      rfl
    · rw [if_neg hunit, if_neg fun h => hunit h.2]
      cases hshelf : c.paths.get? scope' <;> simp [shelf, hshelf]
  · rw [if_neg hscope, if_neg fun h => hscope h.1]

theorem mem_paths?_recordPath {t s : Trace}
    (h : s ∈ (c.recordPath scope unit t).paths? scope' unit') :
    scope' = scope ∧ unit' = unit ∧ s = t ∨ s ∈ c.paths? scope' unit' := by
  rw [paths?_recordPath] at h
  by_cases hkey : scope' = scope ∧ unit' = unit
  · rw [if_pos hkey] at h
    obtain ⟨rfl, rfl⟩ := hkey
    exact (mem_withLatest h).imp_left fun hs => ⟨rfl, rfl, hs⟩
  · rw [if_neg hkey] at h
    exact .inr h

end Notebook.Cache
