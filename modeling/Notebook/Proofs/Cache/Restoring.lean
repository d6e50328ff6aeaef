/-
  Notebook.Proofs.Cache.Restoring — a snapshot brings back just what is missing.

  Restoring goes through the records of a snapshot one by one.  A record counts for its key if it
  can be read; the first such record of a key that the cache lacks is added, and every other record
  is passed over.  So under each key stands what stood there before, or else what the first readable
  record says (`CacheRecord.firstFor?`).

  A snapshot lists the entries of a cache in no particular order.  In every cache that calls and
  look-ups leave (`Cache.Reached`) an entry stands under its own digest, and so each key has one
  record: the order does not matter.

  Main results:
    * `Cache.entry?_restoreRecords` — what is found after records were restored,
    * `Cache.exists_added` — the number that is returned counts the keys that were added,
    * `Cache.Reached.filed` — entries stand under their own digests,
    * `Cache.restore_adds_missing` — a snapshot of another cache, and any snapshot.
-/
import Notebook.Cache.Snapshot
import Notebook.Proofs.Cache.Paths

namespace Notebook

/-! ## §1. Records. -/

namespace CacheRecord

variable {r : CacheRecord} {scope : ScopeId} {digest : Digest} {e : CacheEntry}

/-- The entry that a record has for a key, if it is a record of this key and can be read. -/
def entryFor? (r : CacheRecord) (scope : ScopeId) (digest : Digest) : Option CacheEntry :=
  ( r.toEntry?.filter fun found => found.1 = scope ∧ found.2.strategy.digest = digest).map (·.2)

/-- The entry that the first readable record of a key has for it. -/
def firstFor? (records : List CacheRecord) (scope : ScopeId) (digest : Digest) :
    Option CacheEntry :=
  records.findSome? fun r => r.entryFor? scope digest

theorem entryFor?_eq_some : r.entryFor? scope digest = some e ↔
    r.toEntry? = some (scope, e) ∧ e.strategy.digest = digest := by
  unfold entryFor?
  constructor
  · intro h
    obtain ⟨⟨scope', e'⟩, hfound, rfl⟩ := Option.map_eq_some_iff.1 h
    obtain ⟨hread, hkey⟩ := Option.filter_eq_some_iff.1 hfound
    obtain ⟨rfl, hdigest⟩ := of_decide_eq_true hkey
    exact ⟨hread, hdigest⟩
  · rintro ⟨hread, hdigest⟩
    rw [hread, Option.filter_some, if_pos (decide_eq_true ⟨rfl, hdigest⟩), Option.map_some]

/-- The record of an entry stands for that entry, if its result is read back. -/
theorem toEntry?_ofEntry (h : Json.read? e.result.text = some e.result) :
    toEntry? (ofEntry scope e) = some (scope, e) := by
  -- the kind and the digest make up the strategy again
  have hstrategy : (ofEntry scope e).strategy = e.strategy := by
    unfold strategy ofEntry
    cases e.strategy <;> rfl
  have hread : Json.read? (ofEntry scope e).resultText = some e.result := h
  unfold toEntry?
  rw [hread, Option.map_some, hstrategy]
  rfl

end CacheRecord

namespace Cache

open CacheRecord

variable {c c' : Cache} {r : CacheRecord} {records : List CacheRecord} {scope : ScopeId}
  {digest : Digest} {e : CacheEntry}

/-! ## §2. One record. -/

/-- A record is passed over, or it is added under a key that is free. -/
theorem restoreRecord_cases (c : Cache) (r : CacheRecord) :
    (c.restoreRecord r = (false, c) ∧
      ∀ scope e, r.toEntry? = some (scope, e) → ( c.entry? scope e.strategy.digest).isSome) ∨
    ∃ scope e, r.toEntry? = some (scope, e) ∧ c.entry? scope e.strategy.digest = none ∧
      c.restoreRecord r = (true, c.put scope e) := by
  unfold restoreRecord
  cases hread : r.toEntry? with
  | none => exact .inl ⟨rfl, fun scope e h => nomatch h⟩
  | some found =>
    obtain ⟨scope, e⟩ := found
    cases htaken : c.entry? scope e.strategy.digest with
    | none => exact .inr ⟨scope, e, rfl, htaken, by simp only [htaken]⟩
    | some old =>
      refine .inl ⟨by simp only [htaken], fun scope' e' h => ?_⟩
      obtain ⟨rfl, rfl⟩ := Prod.mk.inj (Option.some.inj h)
      rw [htaken]
      rfl

/-- What is found after one record: what was there before, or else what the record says. -/
theorem entry?_restoreRecord (c : Cache) (r : CacheRecord) (scope : ScopeId) (digest : Digest) :
    entry? (c.restoreRecord r).2 scope digest =
      ( c.entry? scope digest).or (r.entryFor? scope digest) := by
  rcases c.restoreRecord_cases r with ⟨hpassed, htaken⟩ | ⟨scope', e, hread, hfree, hadded⟩
  · rw [hpassed]
    -- where the record would say something, there is an entry
    cases hentry : c.entry? scope digest with
    | some old => rfl
    | none =>
      refine (Option.eq_none_iff_forall_ne_some.2 fun e he => ?_).symm
      obtain ⟨hread, rfl⟩ := entryFor?_eq_some.1 he
      have hsome := htaken scope e hread
      rw [hentry] at hsome
      cases hsome
  · rw [hadded, entry?_put]
    by_cases hkey : scope = scope' ∧ digest = e.strategy.digest
    · obtain ⟨rfl, rfl⟩ := hkey
      rw [if_pos ⟨rfl, rfl⟩, hfree, Option.none_or, entryFor?_eq_some.2 ⟨hread, rfl⟩]
    · have hnone : r.entryFor? scope digest = none := by
        refine Option.eq_none_iff_forall_ne_some.2 fun e' he' => hkey ?_
        obtain ⟨hread', rfl⟩ := entryFor?_eq_some.1 he'
        obtain ⟨rfl, rfl⟩ := Prod.mk.inj (Option.some.inj (hread.symm.trans hread'))
        exact ⟨rfl, rfl⟩
      rw [if_neg hkey, hnone, Option.or_none]

/-! ## §3. All records of a snapshot. -/

theorem restoreRecords_cons (c : Cache) (r : CacheRecord) (records : List CacheRecord) :
    c.restoreRecords (r :: records) =
      (((c.restoreRecord r).2.restoreRecords records).1 + (c.restoreRecord r).1.toNat,
        ((c.restoreRecord r).2.restoreRecords records).2) := rfl

/-- **What is found after records were restored**: what was there before, or else what the first
readable record of the key says. -/
theorem entry?_restoreRecords (c : Cache) (records : List CacheRecord) (scope : ScopeId)
    (digest : Digest) : entry? (c.restoreRecords records).2 scope digest =
      ( c.entry? scope digest).or (firstFor? records scope digest) := by
  induction records generalizing c with
  | nil => exact (Option.or_none ..).symm
  | cons r records ih =>
    rw [restoreRecords_cons, ih, entry?_restoreRecord, Option.or_assoc]
    unfold firstFor?
    rw [List.findSome?_cons]
    cases r.entryFor? scope digest <;> rfl

/-- Entries are added, and nothing else of the cache is touched. -/
theorem restoreRecords_entries (c : Cache) (records : List CacheRecord) :
    ∃ entries, (c.restoreRecords records).2 = { c with entries } := by
  induction records generalizing c with
  | nil => exact ⟨c.entries, rfl⟩
  | cons r records ih =>
    obtain ⟨entries, heq⟩ := ih (c.restoreRecord r).2
    rw [restoreRecords_cons, heq]
    rcases c.restoreRecord_cases r with ⟨hpassed, -⟩ | ⟨scope, e, -, -, hadded⟩
    · exact ⟨entries, by rw [hpassed]⟩
    · exact ⟨entries, by rw [hadded]; rfl⟩

/-- **The number that is returned counts the keys that were added**: those that had no entry before
and have one now. -/
theorem exists_added (c : Cache) (records : List CacheRecord) :
    ∃ added : List (ScopeId × Digest), added.Nodup ∧
      added.length = (c.restoreRecords records).1 ∧
      ∀ scope digest, (scope, digest) ∈ added ↔ c.entry? scope digest = none ∧
        Option.isSome ( entry? (c.restoreRecords records).2 scope digest) := by
  induction records generalizing c with
  | nil =>
    refine ⟨[], List.nodup_nil, rfl, fun scope digest => ?_⟩
    cases h : c.entry? scope digest <;> simp [restoreRecords, h]
  | cons r records ih =>
    obtain ⟨added, hnodup, hlength, hmem⟩ := ih (c.restoreRecord r).2
    rcases c.restoreRecord_cases r with ⟨hpassed, -⟩ | ⟨scope, e, -, hfree, hadded⟩
    · rw [restoreRecords_cons]
      rw [hpassed] at hlength hmem ⊢
      exact ⟨added, hnodup, hlength, hmem⟩
    · -- the key of this record is free before it and taken after it
      have hput : ∀ scope' digest', entry? (c.restoreRecord r).2 scope' digest' =
          if scope' = scope ∧ digest' = e.strategy.digest then some e
          else c.entry? scope' digest' := by
        rw [hadded]
        exact fun scope' digest' => entry?_put c scope scope' e digest'
      refine ⟨(scope, e.strategy.digest) :: added, List.nodup_cons.2 ⟨fun hin => ?_, hnodup⟩,
        ?_, fun scope' digest' => ?_⟩
      · have hnone := ((hmem _ _).1 hin).1
        rw [hput, if_pos ⟨rfl, rfl⟩] at hnone
        cases hnone
      · rw [List.length_cons, hlength, restoreRecords_cons, hadded]
        rfl
      · rw [restoreRecords_cons, List.mem_cons, hmem, hput, Prod.mk.injEq]
        by_cases hkey : scope' = scope ∧ digest' = e.strategy.digest
        · obtain ⟨rfl, rfl⟩ := hkey
          simp [hfree, entry?_restoreRecords, hput]
        · simp [hkey]

/-- Records whose keys are all taken are passed over. -/
theorem restoreRecords_of_taken (h : ∀ r ∈ records, ∀ scope e, r.toEntry? = some (scope, e) →
    ( c.entry? scope e.strategy.digest).isSome) : c.restoreRecords records = (0, c) := by
  induction records with
  | nil => rfl
  | cons r records ih =>
    have hrest := ih fun r' hr' => h r' (List.mem_cons_of_mem _ hr')
    rcases c.restoreRecord_cases r with ⟨hpassed, -⟩ | ⟨scope, e, hread, hfree, -⟩
    · rw [restoreRecords_cons, hpassed, hrest]
      rfl
    · have hsome := h r List.mem_cons_self scope e hread
      rw [hfree] at hsome
      cases hsome

/-- Records that cannot be read make no difference. -/
theorem restoreRecords_filter (c : Cache) (records : List CacheRecord) :
    c.restoreRecords (records.filter fun r => r.toEntry?.isSome) = c.restoreRecords records := by
  induction records generalizing c with
  | nil => rfl
  | cons r records ih =>
    cases hread : r.toEntry? with
    | none =>
      have hpassed : c.restoreRecord r = (false, c) := by
        unfold restoreRecord
        rw [hread]
      rw [List.filter_cons_of_neg (by simp [hread]), ih, restoreRecords_cons, hpassed]
      rfl
    | some found =>
      rw [List.filter_cons_of_pos (by simp [hread]), restoreRecords_cons, restoreRecords_cons, ih]

/-- What restoring a snapshot does, whatever the snapshot has. -/
structure Restores (c : Cache) (s : Snapshot) (count : Nat) (c' : Cache) : Prop where
  /-- What has an entry keeps it, and what has none gets that of the first readable record. -/
  entry : ∀ scope digest, c'.entry? scope digest =
    ( c.entry? scope digest).or (firstFor? s.records scope digest)
  others : ∃ entries, c' = { c with entries }
  counted : ∃ added : List (ScopeId × Digest), added.Nodup ∧ added.length = count ∧
    ∀ scope digest, (scope, digest) ∈ added ↔
      c.entry? scope digest = none ∧ ( c'.entry? scope digest).isSome
  /-- Records that cannot be read might as well not be there. -/
  skipped : c.restore { s with records := s.records.filter fun r => r.toEntry?.isSome } =
    (count, c')
  again : c'.restore s = (0, c')

theorem restore_restores (c : Cache) (s : Snapshot) :
    c.Restores s (c.restore s).1 (c.restore s).2 where
  entry := c.entry?_restoreRecords s.records
  others := c.restoreRecords_entries s.records
  counted := c.exists_added s.records
  skipped := c.restoreRecords_filter s.records
  again := by
    refine restoreRecords_of_taken fun r hr scope e hread => ?_
    -- the first readable record of the key has seen to it
    have hfirst : (firstFor? s.records scope e.strategy.digest).isSome :=
      List.findSome?_isSome_iff.2 ⟨r, hr, by rw [entryFor?_eq_some.2 ⟨hread, rfl⟩]; rfl⟩
    have hentry := c.entry?_restoreRecords s.records scope e.strategy.digest
    rw [restore, hentry, Option.isSome_or, hfirst, Bool.or_true]

/-! ## §4. Caches that calls and look-ups leave. -/

/-- What can become of a cache. -/
inductive Reached [HashFunction] : Cache → Prop
  | new (pinned : Bool) (clock : Nat) : Reached { pinned, clock }
  | pin {c : Cache} (pinned : Bool) : Reached c → Reached { c with pinned }
  /-- Time goes by. -/
  | wait {c : Cache} (clock : Nat) : Reached c → Reached { c with clock }
  | lookup {c : Cache} (scope : ScopeId) (strategy : Strategy) :
    Reached c → Reached (c.lookup scope strategy).2
  | store {c : Cache} (scope : ScopeId) (strategy : Strategy) (result : Json) (effects : Digest) :
    Reached c → Reached (c.store scope strategy result effects)
  | getOrCompute {c : Cache} (scope : ScopeId) (strategy : Strategy)
    (compute : Except Error Json) : Reached c → Reached (c.getOrCompute scope strategy compute).2
  | call {c : Cache} (scope : ScopeId) (unit : WorkUnit) (env : Environment)
    (compute : Except Error (Json × Trace)) :
    Reached c → Reached (c.call scope unit env compute).2
  | invalidate {c : Cache} (scope : ScopeId) : Reached c → Reached (c.invalidate scope).2
  | clear {c : Cache} : Reached c → Reached c.clear
  | restore {c : Cache} (s : Snapshot) : Reached c → Reached (c.restore s).2

/-- Every entry stands under its own digest. -/
def Filed (c : Cache) : Prop :=
  ∀ scope digest e, c.entry? scope digest = some e → e.strategy.digest = digest

namespace Filed

/-- What adds no entry files none under another digest. -/
theorem mono (h : c.Filed) (hsub : ∀ scope digest e, c'.entry? scope digest = some e →
    c.entry? scope digest = some e) : c'.Filed :=
  fun scope digest e he => h scope digest e (hsub scope digest e he)

theorem store (h : c.Filed) (scope : ScopeId) (strategy : Strategy) (result : Json)
    (effects : Digest) : (c.store scope strategy result effects).Filed := by
  intro scope' digest e he
  rw [entry?_store] at he
  split at he
  · obtain rfl := Option.some.inj he
    rename_i hkey
    exact hkey.2.symm
  · exact h scope' digest e he

theorem keep (h : c.Filed) (scope : ScopeId) (strategy : Strategy)
    (compute : Except Error Json) : (c.keep scope strategy compute).Filed := by
  cases compute with
  | ok value => exact h.store scope strategy value .zero
  | error e => exact h

theorem getOrCompute (h : c.Filed) (scope : ScopeId) (strategy : Strategy)
    (compute : Except Error Json) : (c.getOrCompute scope strategy compute).2.Filed := by
  obtain ⟨stats, heq⟩ := c.getOrCompute_spec scope strategy compute
  rw [heq]
  cases c.hit? scope strategy with
  | some found => exact h
  | none => exact Filed.keep (c := { c with stats }) h scope strategy compute

theorem call [HashFunction] (h : c.Filed) (scope : ScopeId) (unit : WorkUnit) (env : Environment)
    (compute : Except Error (Json × Trace)) : (c.call scope unit env compute).2.Filed := by
  show (c.ask ⟨scope, unit, env, compute⟩).2.Filed
  obtain ⟨stats, ⟨r, -, -, -, -, hafter⟩ | ⟨-, hafter | ⟨fields, hafter⟩⟩⟩ :=
    c.ask_cases ⟨scope, unit, env, compute⟩
  · -- recording the trace leaves the entries alone
    rw [hafter]
    exact Filed.store (c := { c with stats }) h r.scope r.key r.value (Trace.digest r.trace)
  · rw [hafter]
    exact h
  · rw [hafter]
    exact Filed.keep (c := { c with stats }) h scope _ (compute.map (·.1))

theorem restore (h : c.Filed) (s : Snapshot) : (c.restore s).2.Filed := by
  intro scope digest e he
  rw [Cache.restore, entry?_restoreRecords, Option.or_eq_some_iff] at he
  rcases he with he | ⟨-, he⟩
  · exact h scope digest e he
  · obtain ⟨r, -, hr⟩ := List.exists_of_findSome?_eq_some he
    exact (entryFor?_eq_some.1 hr).2

end Filed

/-- **Entries stand under their own digests.** -/
theorem Reached.filed [HashFunction] (h : c.Reached) : c.Filed := by
  induction h with
  | new => exact fun _ _ _ he => nomatch he
  | pin _ _ ih => exact ih
  | wait _ _ ih => exact ih
  | @lookup c scope strategy _ ih =>
    unfold Cache.lookup
    split
    · split <;> exact ih
    · exact ih
  | store scope strategy result effects _ ih => exact ih.store scope strategy result effects
  | getOrCompute scope strategy compute _ ih => exact ih.getOrCompute scope strategy compute
  | call scope unit env compute _ ih => exact ih.call scope unit env compute
  | invalidate scope _ ih => exact ih.mono fun _ _ _ he => entry?_of_invalidate he
  | clear => exact fun _ _ _ he => nomatch he
  | restore s _ ih => exact ih.restore s

/-! ## §5. Snapshots of caches. -/

/-- The results of all entries are read back from their texts. -/
def ReadsBack (c : Cache) : Prop :=
  ∀ scope digest e, c.entry? scope digest = some e → Json.read? e.result.text = some e.result

/-- A snapshot has one record for each entry. -/
theorem mem_records : r ∈ c.records ↔
    ∃ scope digest e, c.entry? scope digest = some e ∧ r = ofEntry scope e := by
  unfold records
  constructor
  · intro h
    obtain ⟨⟨scope, shelf⟩, hshelf, hr⟩ := List.mem_flatMap.1 h
    obtain ⟨e, he, rfl⟩ := List.mem_map.1 hr
    obtain ⟨⟨digest, e⟩, hentry, rfl⟩ := List.mem_map.1 he
    refine ⟨scope, digest, e, ?_, rfl⟩
    unfold entry?
    rw [(Table.get?_eq_some_iff _).2 hshelf, Option.bind_some,
      (Table.get?_eq_some_iff _).2 hentry]
  · rintro ⟨scope, digest, e, he, rfl⟩
    obtain ⟨shelf, hshelf, hentry⟩ := Option.bind_eq_some_iff.1 he
    exact List.mem_flatMap.2 ⟨(scope, shelf), (Table.get?_eq_some_iff _).1 hshelf,
      List.mem_map_of_mem (List.mem_map.2 ⟨(digest, e), (Table.get?_eq_some_iff _).1 hentry, rfl⟩)⟩

/-- Whatever the order of its records, a snapshot has for each key what the cache has there. -/
theorem firstFor?_records (hfiled : c.Filed) (hread : c.ReadsBack)
    (horder : records.Perm c.records) : firstFor? records scope digest = c.entry? scope digest := by
  -- a record of the key is the record of the entry that stands there
  have hfound : ∀ r ∈ records, ∀ e, r.entryFor? scope digest = some e →
      c.entry? scope digest = some e := by
    intro r hr e he
    obtain ⟨scope', digest', e', hentry, rfl⟩ := mem_records.1 (horder.mem_iff.1 hr)
    obtain ⟨hsame, rfl⟩ := entryFor?_eq_some.1 he
    rw [toEntry?_ofEntry (hread _ _ _ hentry)] at hsame
    obtain ⟨rfl, rfl⟩ := Prod.mk.inj (Option.some.inj hsame)
    rwa [hfiled _ _ _ hentry]
  cases hentry : c.entry? scope digest with
  | none =>
    refine Option.eq_none_iff_forall_ne_some.2 fun e he => ?_
    obtain ⟨r, hr, hsome⟩ := List.exists_of_findSome?_eq_some he
    rw [hfound r hr e hsome] at hentry
    cases hentry
  | some e =>
    have hin : ofEntry scope e ∈ records :=
      horder.mem_iff.2 (mem_records.2 ⟨scope, digest, e, hentry, rfl⟩)
    have hown : (ofEntry scope e).entryFor? scope digest = some e :=
      entryFor?_eq_some.2 ⟨toEntry?_ofEntry (hread _ _ _ hentry), hfiled _ _ _ hentry⟩
    have hsome : (firstFor? records scope digest).isSome :=
      List.findSome?_isSome_iff.2 ⟨_, hin, by rw [hown]; rfl⟩
    obtain ⟨e', he'⟩ := Option.isSome_iff_exists.1 hsome
    obtain ⟨r, hr, hfirst⟩ := List.exists_of_findSome?_eq_some he'
    rw [he', ← hfound r hr e' hfirst, hentry]

/-- **A snapshot brings back just what is missing.**  Restored from a snapshot of another cache, in
any order of the records, a cache keeps its entries and gets those of the other cache under all keys
that it lacks.  Of any snapshot it gets what the first readable record of each missing key says; the
number returned counts the keys that were added, and nothing is added the second time. -/
theorem restore_adds_missing [HashFunction] {c : Cache} (hc : c.Reached) (hread : c.ReadsBack)
    (c' : Cache) :
    (∀ s : Snapshot, s.records.Perm c.records → ∀ scope digest,
      entry? (c'.restore s).2 scope digest =
        ( c'.entry? scope digest).or ( c.entry? scope digest)) ∧
    ∀ s : Snapshot, c'.Restores s (c'.restore s).1 (c'.restore s).2 := by
  refine ⟨fun s horder scope digest => ?_, c'.restore_restores⟩
  rw [(c'.restore_restores s).entry, firstFor?_records hc.filed hread horder]

/-- A cache with a result by content and one by path. -/
def stocked : Cache :=
  let c : Cache := { clock := 5 }
  let c := c.store ⟨"cell_0"⟩ (.content ⟨[1]⟩) (.string "one") .zero
  c.store ⟨"cell_0"⟩ (.path ⟨[2]⟩) (.string "two") ⟨[3]⟩

/-- Another cache, which has the first key of `stocked` under the other kind of strategy. -/
def partlyStocked : Cache :=
  ({ clock := 9 } : Cache).store ⟨"cell_0"⟩ (.path ⟨[1]⟩) (.bool true) .zero

/-- The entry under the shared key stays, and only the other one is brought back. -/
theorem partlyStocked_gets_path :
    let _ := HashFunction.spelled
    stocked.Reached ∧ stocked.ReadsBack ∧
      ∃ c, partlyStocked.restore stocked.snapshot = (1, c) ∧
        c.entry? ⟨"cell_0"⟩ ⟨[1]⟩ = partlyStocked.entry? ⟨"cell_0"⟩ ⟨[1]⟩ ∧
        c.entry? ⟨"cell_0"⟩ ⟨[2]⟩ = some ⟨.path ⟨[2]⟩, .string "two", ⟨[3]⟩, 5⟩ ∧
        c.restore stocked.snapshot = (0, c) := by
  intro _
  have hreached : stocked.Reached := ((Reached.new false 5).store _ _ _ _).store _ _ _ _
  have hread : stocked.ReadsBack := by
    intro scope digest e he
    unfold stocked at he
    rw [entry?_store, entry?_store] at he
    split at he
    · obtain rfl := Option.some.inj he
      cbv
    · split at he
      · obtain rfl := Option.some.inj he
        cbv
      · cases he
  have hcount : (partlyStocked.restore stocked.snapshot).1 = 1 := by cbv
  obtain ⟨hown, hany⟩ := restore_adds_missing hreached hread partlyStocked
  have hentry := hown stocked.snapshot (.refl _)
  refine ⟨hreached, hread, _, Prod.ext hcount rfl, ?_, ?_, (hany stocked.snapshot).again⟩
  · exact (hentry _ _).trans (by cbv)
  · exact (hentry _ _).trans (by cbv)

end Cache

end Notebook
