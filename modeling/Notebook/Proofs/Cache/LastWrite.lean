/-
  Notebook.Proofs.Cache.LastWrite — a key answers for the last write that was made under it.

  Entries of both kinds of strategies share their keys.  So a result that is stored by path takes
  the place of one that was stored by content, and what is computed after the mismatch takes its
  place in turn; a restored entry comes in only where there is none.  Whatever the history was, it
  comes down to one write for each key: the last one that was not forgotten since (`lastWrite?`).
  It is found by the strategy it was made with, and is a mismatch for the other one.

  A call that computes takes a lock into the table and out again.  Of the locks that others hold
  none is lost, and none is left that only the table holds (`Engine.lock?_getOrCompute`); so where
  the calls come one after another, the table is empty between them.

  Main results:
    * `Engine.getOrCompute_cache` — the locks make no difference to what is found and stored,
    * `Engine.lock?_getOrCompute` — the locks after a call,
    * `Engine.lastWrite?_eq_some_iff` — which write is the last one,
    * `Engine.entry?_performAll` — each key has its last write,
    * `Engine.goesByLookup` — a call goes by what a look-up would find, in every engine,
    * `Engine.performAll_answers` — what is found, computed and stored after any history.
-/
import Notebook.Cache.Engine
import Notebook.Proofs.Cache.Restoring

namespace Notebook

/-- Strategies with one digest are the same, or of different kinds. -/
theorem Strategy.ne_iff {s t : Strategy} (h : s.digest = t.digest) :
    s ≠ t ↔ s.isContent = !t.isContent := by
  cases s <;> cases t <;> simp_all [digest, isContent]

namespace Engine

variable {e : Engine} {scope scope' : ScopeId} {strategy : Strategy} {digest digest' : Digest}
  {serial : Nat} {lock : Lock}

/-! ## §1. Locks. -/

theorem lock?_putLock (e : Engine) (scope scope' : ScopeId) (digest digest' : Digest)
    (lock : Lock) : (e.putLock scope digest lock).lock? scope' digest' =
      if scope' = scope ∧ digest' = digest then some lock else e.lock? scope' digest' := by
  unfold lock? putLock
  dsimp only
  rw [Table.get?_insert]
  by_cases hscope : scope' = scope
  · subst hscope
    rw [if_pos rfl, Option.bind_some, Table.get?_insert]
    cases e.locks.get? scope' <;> simp
  · simp [hscope]

theorem lock?_dropLock (e : Engine) (scope scope' : ScopeId) (digest digest' : Digest) :
    (e.dropLock scope digest).lock? scope' digest' =
      if scope' = scope ∧ digest' = digest then none else e.lock? scope' digest' := by
  unfold lock? dropLock
  dsimp only
  rw [Table.get?_modify]
  by_cases hscope : scope' = scope
  · subst hscope
    rw [if_pos rfl]
    cases e.locks.get? scope' <;> simp
  · simp [hscope]

/-- A call that has come for a lock holds it, beside those who held it before. -/
theorem lock?_acquire (e : Engine) (scope : ScopeId) (digest : Digest) :
    ∃ lock : Lock, lock.serial = (e.acquire scope digest).1 ∧
      (lock.holders = 2 ∧ e.lock? scope digest = none ∨
        e.lock? scope digest = some { lock with holders := lock.holders - 1 }) ∧
      ∀ scope' digest', (e.acquire scope digest).2.lock? scope' digest' =
        if scope' = scope ∧ digest' = digest then some lock else e.lock? scope' digest' := by
  unfold acquire
  cases hlock : e.lock? scope digest with
  | none => exact ⟨⟨e.made, 2⟩, rfl, .inl ⟨rfl, rfl⟩, fun scope' digest' =>
      lock?_putLock e scope scope' digest digest' ⟨e.made, 2⟩⟩
  | some lock => exact ⟨{ lock with holders := lock.holders + 1 }, rfl, .inr rfl,
      fun scope' digest' => lock?_putLock ..⟩

/-- A call that is done with its lock takes it out, or leaves it to those who hold it, too. -/
theorem lock?_leave_release (h : e.lock? scope digest = some lock) (scope' : ScopeId)
    (digest' : Digest) :
    ((e.release scope digest lock.serial).leave scope digest lock.serial).lock? scope' digest' =
      if scope' = scope ∧ digest' = digest then
        if lock.holders ≤ 2 then none else some { lock with holders := lock.holders - 1 }
      else e.lock? scope' digest' := by
  unfold release
  simp only [h, true_and]
  by_cases hheld : lock.holders ≤ 2
  · have hgone : (e.dropLock scope digest).lock? scope digest = none := by
      rw [lock?_dropLock, if_pos ⟨rfl, rfl⟩]
    rw [if_pos hheld, if_pos hheld]
    unfold leave
    rw [hgone]
    exact lock?_dropLock e scope scope' digest digest'
  · rw [if_neg hheld, if_neg hheld]
    unfold leave
    simp only [h, if_true]
    exact lock?_putLock e scope scope' digest digest' _

/-- **A call comes for a lock and goes**, whatever it does to the cache in between: what others hold
beside the table is left to them, and what nobody else holds is taken out. -/
theorem lock?_acquire_release (e : Engine) (cache : Cache) (scope scope' : ScopeId)
    (digest digest' : Digest) :
    ((release { (e.acquire scope digest).2 with cache } scope digest
        (e.acquire scope digest).1).leave scope digest (e.acquire scope digest).1).lock?
          scope' digest' =
      if scope' = scope ∧ digest' = digest then
        e.lock? scope digest |>.filter fun lock => 1 < lock.holders
      else e.lock? scope' digest' := by
  obtain ⟨lock, hserial, hheld, hlocks⟩ := e.lock?_acquire scope digest
  generalize e.acquire scope digest = got at hserial hlocks
  obtain ⟨serial, acquired⟩ := got
  obtain rfl : lock.serial = serial := hserial
  have hlock : lock? { acquired with cache } scope digest = some lock :=
    (hlocks ..).trans (if_pos ⟨rfl, rfl⟩)
  dsimp only
  rw [lock?_leave_release hlock]
  by_cases hkey : scope' = scope ∧ digest' = digest
  · rw [if_pos hkey, if_pos hkey]
    rcases hheld with ⟨htwo, hnone⟩ | hsome
    · rw [hnone, if_pos htwo.le]
      rfl
    · rw [hsome, Option.filter_some]
      by_cases htwo : lock.holders ≤ 2
      · rw [if_pos htwo, if_neg (by simp; omega)]
      · rw [if_neg htwo, if_pos (by simp; omega)]
  · rw [if_neg hkey, if_neg hkey]
    exact (hlocks ..).trans (if_neg hkey)

@[simp] theorem acquire_cache (e : Engine) (scope : ScopeId) (digest : Digest) :
    (e.acquire scope digest).2.cache = e.cache := by
  unfold acquire
  cases e.lock? scope digest <;> rfl

@[simp] theorem release_cache (e : Engine) (scope : ScopeId) (digest : Digest) (serial : Nat) :
    (e.release scope digest serial).cache = e.cache := by
  unfold release
  split
  · split <;> rfl
  · rfl

@[simp] theorem leave_cache (e : Engine) (scope : ScopeId) (digest : Digest) (serial : Nat) :
    (e.leave scope digest serial).cache = e.cache := by
  unfold leave
  split
  · split <;> rfl
  · rfl

/-! ## §2. One call. -/

/-- **The locks make no difference to what is found and stored.** -/
theorem getOrCompute_cache (e : Engine) (scope : ScopeId) (strategy : Strategy)
    (compute : Except Error Json) :
    ((e.getOrCompute scope strategy compute).1, (e.getOrCompute scope strategy compute).2.cache) =
      e.cache.getOrCompute scope strategy compute := by
  unfold getOrCompute Cache.getOrCompute
  rcases hfirst : e.cache.lookupOrMiss scope strategy with ⟨_ | hit, cache⟩
  · simp only [acquire_cache]
    rcases cache.lookupOrMiss scope strategy with ⟨_ | hit, cache'⟩
    · cases compute <;> simp
    · simp
  · rfl

theorem getOrCompute_fst (e : Engine) (scope : ScopeId) (strategy : Strategy)
    (compute : Except Error Json) : (e.getOrCompute scope strategy compute).1 =
      match e.cache.hit? scope strategy with
      | some found => ⟨.ok found.result, false⟩
      | none => ⟨compute, true⟩ :=
  (congrArg Prod.fst (e.getOrCompute_cache scope strategy compute)).trans
    (e.cache.getOrCompute_fst scope strategy compute)

theorem entry?_getOrCompute (e : Engine) (scope scope' : ScopeId) (strategy : Strategy)
    (compute : Except Error Json) (digest : Digest) :
    Cache.entry? (e.getOrCompute scope strategy compute).2.cache scope' digest =
      if e.cache.hit? scope strategy = none ∧ scope' = scope ∧ digest = strategy.digest then
        (compute.toOption.map fun value => ⟨strategy, value, .zero, e.cache.clock⟩).or
          ( e.cache.entry? scope' digest)
      else e.cache.entry? scope' digest := by
  have hcache : (e.getOrCompute scope strategy compute).2.cache =
      (e.cache.getOrCompute scope strategy compute).2 :=
    congrArg Prod.snd (e.getOrCompute_cache scope strategy compute)
  rw [hcache, Cache.entry?_getOrCompute]

/-- **The locks after a call.**  A call that computes leaves the lock of its key to those who held
it beside the table, and takes it out if there was nobody; no other lock is touched. -/
theorem lock?_getOrCompute (e : Engine) (scope : ScopeId) (strategy : Strategy)
    (compute : Except Error Json) (scope' : ScopeId) (digest' : Digest) :
    (e.getOrCompute scope strategy compute).2.lock? scope' digest' =
      if e.cache.hit? scope strategy = none ∧ scope' = scope ∧ digest' = strategy.digest then
        (e.lock? scope strategy.digest).filter fun lock => 1 < lock.holders
      else e.lock? scope' digest' := by
  obtain ⟨stats, hfirst⟩ := e.cache.lookupOrMiss_eq scope strategy
  unfold getOrCompute
  rw [hfirst]
  cases hmiss : e.cache.hit? scope strategy with
  | some found => rfl
  | none =>
    -- looked up again the key still has nothing
    obtain ⟨stats', hsecond⟩ := Cache.lookupOrMiss_eq { e.cache with stats } scope strategy
    simp only [acquire_cache, hsecond, true_and,
      show Cache.hit? { e.cache with stats } scope strategy = none from hmiss]
    rw [lock?_acquire_release]
    rfl

/-! ## §3. Histories. -/

/-- One use of an engine.  Where an entry may be made the time is told. -/
inductive Operation where
  | store (scope : ScopeId) (strategy : Strategy) (result : Json) (effects : Digest) (now : Nat)
  | lookup (scope : ScopeId) (strategy : Strategy)
  | getOrCompute (scope : ScopeId) (strategy : Strategy) (compute : Except Error Json) (now : Nat)
  | invalidate (scope : ScopeId)
  | clear
  | restore (snapshot : Snapshot)

/-- The engine after one use of it. -/
def perform (e : Engine) : Operation → Engine
  | .store scope strategy result effects now =>
    { e with cache := { e.cache with clock := now }.store scope strategy result effects }
  | .lookup scope strategy => { e with cache := (e.cache.lookup scope strategy).2 }
  | .getOrCompute scope strategy compute now =>
    (getOrCompute { e with cache := { e.cache with clock := now } } scope strategy compute).2
  | .invalidate scope => { e with cache := (e.cache.invalidate scope).2 }
  | .clear => { e with cache := e.cache.clear }
  | .restore snapshot => { e with cache := (e.cache.restore snapshot).2 }

/-- The engine after uses in turn. -/
def performAll (e : Engine) (ops : List Operation) : Engine := ops.foldl perform e

namespace Operation

/-- What a use writes under a key, given what was written there last: a stored result always, a
computed one where something else was written or nothing, a restored one where there is nothing. -/
def write? (scope : ScopeId) (digest : Digest) (last : Option CacheEntry) :
    Operation → Option CacheEntry
  | .store scope' strategy result effects now =>
    if scope = scope' ∧ digest = strategy.digest then some ⟨strategy, result, effects, now⟩
    else none
  | .getOrCompute scope' strategy compute now =>
    if scope = scope' ∧ digest = strategy.digest ∧ last.map (·.strategy) ≠ some strategy then
      compute.toOption.map fun value => ⟨strategy, value, .zero, now⟩
    else none
  | .restore snapshot =>
    if last = none then CacheRecord.firstFor? snapshot.records scope digest else none
  | _ => none

/-- Whether a use drops what was written in a scope. -/
def forgets (scope : ScopeId) : Operation → Bool
  | .invalidate scope' => scope = scope'
  | .clear => true
  | _ => false

/-- The last write under a key after one more use. -/
def after (scope : ScopeId) (digest : Digest) (last : Option CacheEntry) (op : Operation) :
    Option CacheEntry :=
  (op.write? scope digest last).or (if op.forgets scope then none else last)

end Operation

/-- The last write under a key that was not forgotten since. -/
def lastWrite? (scope : ScopeId) (digest : Digest) (ops : List Operation) : Option CacheEntry :=
  ops.foldl (Operation.after scope digest) none

theorem performAll_concat (e : Engine) (ops : List Operation) (op : Operation) :
    e.performAll (ops ++ [op]) = (e.performAll ops).perform op := List.foldl_concat ..

theorem lastWrite?_concat (scope : ScopeId) (digest : Digest) (ops : List Operation)
    (op : Operation) :
    lastWrite? scope digest (ops ++ [op]) = op.after scope digest (lastWrite? scope digest ops) :=
  List.foldl_concat ..

/-- A use wrote it, and no later one wrote under the key or forgot its scope. -/
theorem lastWrite?_eq_some_iff {ops : List Operation} {entry : CacheEntry} :
    lastWrite? scope digest ops = some entry ↔ ∃ earlier op later, ops = earlier ++ op :: later ∧
      op.write? scope digest (lastWrite? scope digest earlier) = some entry ∧
      ∀ op' ∈ later, op'.write? scope digest (some entry) = none ∧ op'.forgets scope = false := by
  constructor
  · intro h
    induction ops using List.reverseRecOn with
    | nil => cases h
    | append_singleton ops op ih =>
      rw [lastWrite?_concat, Operation.after, Option.or_eq_some_iff] at h
      rcases h with hwrite | ⟨hnone, hlast⟩
      · exact ⟨ops, op, [], rfl, hwrite, fun _ h => nomatch h⟩
      · split at hlast
        · cases hlast
        · rename_i hkept
          obtain ⟨earlier, op', later, rfl, hwrite, hlater⟩ := ih hlast
          refine ⟨earlier, op', later ++ [op], by simp, hwrite, fun op'' h => ?_⟩
          rcases List.mem_append.1 h with h | h
          · exact hlater op'' h
          · obtain rfl := List.mem_singleton.1 h
            rw [hlast] at hnone
            exact ⟨hnone, Bool.eq_false_of_not_eq_true hkept⟩
  · rintro ⟨earlier, op, later, rfl, hwrite, hlater⟩
    induction later using List.reverseRecOn with
    | nil => rw [lastWrite?_concat, Operation.after, hwrite, Option.some_or]
    | append_singleton later op' ih =>
      have hsame := ih fun op'' h => hlater op'' (List.mem_append_left _ h)
      obtain ⟨hnone, hkept⟩ := hlater op' (List.mem_append_right _ (List.mem_singleton_self _))
      rw [← List.cons_append, ← List.append_assoc, lastWrite?_concat, hsame, Operation.after,
        hnone, hkept]
      rfl

/-- What stands under a key after one use. -/
theorem entry?_perform (e : Engine) (op : Operation) (scope : ScopeId) (digest : Digest) :
    Cache.entry? (e.perform op).cache scope digest =
      op.after scope digest ( e.cache.entry? scope digest) := by
  unfold Operation.after
  cases op with
  | store scope' strategy result effects now =>
    refine (Cache.entry?_store ..).trans ?_
    by_cases hkey : scope = scope' ∧ digest = strategy.digest
    · simp [Operation.write?, hkey]
    · simp only [Operation.write?, Operation.forgets, if_neg hkey]
      rfl
  | lookup scope' strategy =>
    obtain ⟨stats, heq⟩ := e.cache.lookup_snd scope' strategy
    show Cache.entry? (e.cache.lookup scope' strategy).2 scope digest = _
    rw [heq]
    rfl
  | getOrCompute scope' strategy compute now =>
    refine (entry?_getOrCompute ..).trans ?_
    -- nothing is found just where the last write was made with another strategy
    have hmissed : (Cache.hit? { e.cache with clock := now } scope' strategy = none ∧
        scope = scope' ∧ digest = strategy.digest) ↔
        scope = scope' ∧ digest = strategy.digest ∧
          ( e.cache.entry? scope digest).map (·.strategy) ≠ some strategy := by
      constructor
      · rintro ⟨hmiss, rfl, rfl⟩
        exact ⟨rfl, rfl, Cache.hit?_eq_none.1 hmiss⟩
      · rintro ⟨rfl, rfl, hother⟩
        exact ⟨Cache.hit?_eq_none.2 hother, rfl, rfl⟩
    simp only [hmissed, Operation.write?, Operation.forgets]
    split
    · rfl
    · rfl
  | invalidate scope' =>
    refine (Cache.entry?_invalidate ..).trans ?_
    simp [Operation.write?, Operation.forgets]
  | clear => rfl
  | restore snapshot =>
    refine (Cache.entry?_restoreRecords ..).trans ?_
    cases e.cache.entry? scope digest <;> simp [Operation.write?, Operation.forgets]

/-- **What stands under a key** after any history is the last write that was not forgotten. -/
theorem entry?_performAll (h : ∀ scope digest, e.cache.entry? scope digest = none)
    (ops : List Operation) (scope : ScopeId) (digest : Digest) :
    Cache.entry? (e.performAll ops).cache scope digest = lastWrite? scope digest ops := by
  induction ops using List.reverseRecOn with
  | nil => exact h scope digest
  | append_singleton ops op ih => rw [performAll_concat, lastWrite?_concat, entry?_perform, ih]

/-- A write under a key is made with a strategy that has its digest. -/
theorem Operation.digest_of_write? {op : Operation} {last : Option CacheEntry} {entry : CacheEntry}
    (h : op.write? scope digest last = some entry) : entry.strategy.digest = digest := by
  cases op with
  | store scope' strategy result effects now =>
    simp only [write?] at h
    split at h
    · obtain rfl := Option.some.inj h
      rename_i hkey
      exact hkey.2.symm
    · cases h
  | getOrCompute scope' strategy compute now =>
    simp only [write?] at h
    split at h
    · obtain ⟨value, -, rfl⟩ := Option.map_eq_some_iff.1 h
      rename_i hkey
      exact hkey.2.1.symm
    · cases h
  | restore snapshot =>
    simp only [write?] at h
    split at h
    · obtain ⟨r, -, hr⟩ := List.exists_of_findSome?_eq_some h
      exact (CacheRecord.entryFor?_eq_some.1 hr).2
    · cases h
  | _ => cases h

theorem digest_of_lastWrite? {ops : List Operation} {entry : CacheEntry}
    (h : lastWrite? scope digest ops = some entry) : entry.strategy.digest = digest := by
  induction ops using List.reverseRecOn with
  | nil => cases h
  | append_singleton ops op ih =>
    rw [lastWrite?_concat, Operation.after, Option.or_eq_some_iff] at h
    rcases h with hwrite | ⟨-, hlast⟩
    · exact Operation.digest_of_write? hwrite
    · split at hlast
      · cases hlast
      · exact ih hlast

/-- **Between uses no lock is left.** -/
theorem lock?_performAll (h : ∀ scope digest, e.lock? scope digest = none) (ops : List Operation)
    (scope : ScopeId) (digest : Digest) : (e.performAll ops).lock? scope digest = none := by
  induction ops using List.reverseRecOn generalizing scope digest with
  | nil => exact h scope digest
  | append_singleton ops op ih =>
    rw [performAll_concat]
    cases op with
    | getOrCompute scope' strategy compute now =>
      refine (lock?_getOrCompute ..).trans ?_
      split
      · exact congrArg (Option.filter _) (ih scope' strategy.digest)
      · exact ih scope digest
    | _ => exact ih scope digest

/-! ## §4. What an engine answers. -/

/-- How a call goes by what a look-up would find. -/
structure GoesByLookup (e : Engine) : Prop where
  /-- Something is computed where the look-up would not find an entry, -/
  computes : ∀ scope strategy compute,
    (e.getOrCompute scope strategy compute).1.computed = true ↔
      ∀ entry, (e.cache.lookup scope strategy).1 ≠ .ok (some entry)
  /-- and is the result, -/
  computed : ∀ scope strategy compute,
    (e.getOrCompute scope strategy compute).1.computed = true →
      (e.getOrCompute scope strategy compute).1.result = compute
  /-- and what is found is the result where nothing is computed. -/
  serves : ∀ scope strategy compute entry,
    (e.cache.lookup scope strategy).1 = .ok (some entry) →
      (e.getOrCompute scope strategy compute).1.result = .ok entry.result
  /-- A computed success is stored, -/
  stores : ∀ scope strategy value,
    (e.getOrCompute scope strategy (.ok value)).1.computed = true → ∀ scope' digest,
      Cache.entry? (e.getOrCompute scope strategy (.ok value)).2.cache scope' digest =
        if scope' = scope ∧ digest = strategy.digest then
          some ⟨strategy, value, .zero, e.cache.clock⟩
        else e.cache.entry? scope' digest
  /-- and nothing else is, a failure in particular. -/
  keeps : ∀ scope strategy compute, (e.getOrCompute scope strategy compute).1.computed = false ∨
    (∃ error, compute = .error error) → ∀ scope' digest,
      Cache.entry? (e.getOrCompute scope strategy compute).2.cache scope' digest =
        e.cache.entry? scope' digest

/-- **So it goes in every engine**, whatever is in it. -/
theorem goesByLookup (e : Engine) : e.GoesByLookup := by
  constructor
  case computes =>
    intro scope strategy compute
    simp only [ne_eq, Cache.lookup_eq_some, getOrCompute_fst]
    cases e.cache.hit? scope strategy <;> simp
  case computed =>
    intro scope strategy compute hcomputed
    rw [getOrCompute_fst] at hcomputed ⊢
    cases hhit : e.cache.hit? scope strategy with
    | some found => simp [hhit] at hcomputed
    | none => rfl
  case serves =>
    intro scope strategy compute entry hfound
    rw [getOrCompute_fst, Cache.lookup_eq_some.1 hfound]
  case stores =>
    intro scope strategy value hcomputed scope' digest
    rw [getOrCompute_fst] at hcomputed
    cases hhit : e.cache.hit? scope strategy with
    | some found => simp [hhit] at hcomputed
    | none =>
      rw [entry?_getOrCompute, hhit]
      simp only [true_and]
      rfl
  case keeps =>
    intro scope strategy compute hkept scope' digest
    rw [entry?_getOrCompute]
    split
    · rename_i hmiss
      rcases hkept with hkept | ⟨error, rfl⟩
      · simp [getOrCompute_fst, hmiss.1] at hkept
      · rfl
    · rfl

/-- What an engine does that has these last writes. -/
structure Answers (e : Engine) (last : ScopeId → Digest → Option CacheEntry) : Prop where
  /-- A write is found by just the strategy it was made with. -/
  finds : ∀ scope strategy entry, (e.cache.lookup scope strategy).1 = .ok (some entry) ↔
    last scope strategy.digest = some entry ∧ entry.strategy = strategy
  /-- It is an inconsistency for the strategy of the other kind. -/
  mismatches : ∀ scope strategy error, (e.cache.lookup scope strategy).1 = .error error ↔
    ∃ entry, last scope strategy.digest = some entry ∧
      entry.strategy.isContent = !strategy.isContent ∧
      error = .cacheKeyMismatch scope.text strategy.kind entry.strategy.kind
  misses : ∀ scope strategy, (e.cache.lookup scope strategy).1 = .ok none ↔
    last scope strategy.digest = none
  goes : e.GoesByLookup
  /-- No lock is left, and none when a call is done. -/
  unlocked : ∀ scope digest, e.lock? scope digest = none
  unlocks : ∀ scope strategy compute scope' digest,
    (e.getOrCompute scope strategy compute).2.lock? scope' digest = none

/-- **The store never matches partially.**  After any history of uses of a new engine a look-up
finds the last write that was made under the key and not forgotten, if that was made with just the
strategy that is asked for, and is an inconsistency if it was made with the other kind.  Something
is computed just where nothing would be found; a success is stored, a failure changes no entry, and
no lock is left. -/
theorem performAll_answers (pinned : Bool) (ops : List Operation) :
    (performAll { cache := { pinned } } ops).Answers fun scope digest =>
      lastWrite? scope digest ops := by
  have hentry := entry?_performAll (e := { cache := { pinned } }) (fun _ _ => rfl) ops
  have hunlocked := lock?_performAll (e := { cache := { pinned } }) (fun _ _ => rfl) ops
  generalize performAll { cache := { pinned } } ops = e at hentry hunlocked
  constructor
  case finds =>
    intro scope strategy entry
    rw [Cache.lookup_eq_some, Cache.hit?_eq_some, hentry]
  case mismatches =>
    intro scope strategy error
    rw [Cache.lookup_eq_error]
    constructor
    · rintro ⟨entry, hfound, hother, rfl⟩
      rw [hentry] at hfound
      exact ⟨entry, hfound, (Strategy.ne_iff (digest_of_lastWrite? hfound)).1 hother, rfl⟩
    · rintro ⟨entry, hlast, hother, rfl⟩
      refine ⟨entry, (hentry ..).trans hlast, ?_, rfl⟩
      exact (Strategy.ne_iff (digest_of_lastWrite? hlast)).2 hother
  case misses =>
    intro scope strategy
    rw [Cache.lookup_eq_none, hentry]
  case goes => exact e.goesByLookup
  case unlocked => exact hunlocked
  case unlocks =>
    intro scope strategy compute scope' digest
    rw [lock?_getOrCompute, hunlocked, hunlocked]
    exact ite_self none

end Engine

end Notebook
