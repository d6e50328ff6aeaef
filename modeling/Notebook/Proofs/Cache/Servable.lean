/-
  Notebook.Proofs.Cache.Servable — every recorded run can be served.

  The traces that are recorded for an impure unit and the results that stand under their keys are in
  two tables, and each of them changes for reasons of its own: a run moves its trace to the end and
  may push the oldest one out, a result takes the place of another one with its key, a snapshot
  brings entries and no traces, and forgetting goes through both.  The runs that have been made and
  not forgotten (`Cache.liveRuns`) account for both tables.  The traces of a unit are the last eight
  different ones of its runs, and under the key of each stands a result.

  So an impure unit is run just where no recorded trace holds now, and is otherwise served what
  stands under the latest one that does.

  Main results:
    * `Cache.withLatest_recent` — the eight latest traces after one more run,
    * `Cache.Accounted.act`, `Cache.Accounted.acts` — the runs account for both tables,
    * `Cache.acts_servable` — what is recorded, served and run after any history.
-/
import Notebook.Proofs.Cache.Restoring

namespace Notebook

namespace Cache

/-! ## §1. The latest traces. -/

/-- The last eight different ones of some traces, by their last occurrences. -/
def recent (ts : List Trace) : List Trace := ts.dedup.rtake maxPaths

/-- With one more at the end a list loses its other occurrences. -/
theorem dedup_concat {α : Type} [DecidableEq α] (xs : List α) (x : α) :
    (xs ++ [x]).dedup = xs.dedup.filter (· ≠ x) ++ [x] := by
  induction xs with
  | nil => rfl
  | cons y ys ih =>
    rw [List.cons_append, List.dedup_cons, List.dedup_cons, ih]
    simp only [List.mem_append, List.mem_singleton]
    by_cases hmem : y ∈ ys
    · rw [if_pos (.inl hmem), if_pos hmem]
    · rw [if_neg hmem]
      by_cases heq : y = x
      · rw [if_pos (.inr heq), List.filter_cons_of_neg (by simp [heq])]
      · rw [if_neg (by simp [hmem, heq]), List.filter_cons_of_pos (by simp [heq]), List.cons_append]

/-- Without one of its members a list is shorter by one at most. -/
theorem le_length_filter_ne {α : Type} [DecidableEq α] {xs : List α} (h : xs.Nodup) (x : α) :
    xs.length ≤ (xs.filter (· ≠ x)).length + 1 := by
  have herase := List.le_length_erase (l := xs) (a := x)
  rw [h.erase_eq_filter] at herase
  have hsame : xs.filter (· != x) = xs.filter (· ≠ x) := by simp [bne, beq_eq_decide]
  rw [← hsame]
  omega

/-- The last ones of two lists are those of the second, if it has enough of them. -/
theorem rtake_append_of_le {α : Type} {xs ys : List α} {n : Nat} (h : xs = [] ∨ n ≤ ys.length) :
    (xs ++ ys).rtake n = ys.rtake n := by
  unfold List.rtake
  rcases h with rfl | h
  · rw [List.nil_append]
  · have hcount : (xs ++ ys).length - n = xs.length + (ys.length - n) := by
      rw [List.length_append]
      omega
    rw [hcount, List.drop_length_add_append]

/-- **The eight latest traces after one more run**: its trace comes last, and the oldest one goes
when it is the ninth. -/
theorem withLatest_recent (ts : List Trace) (t : Trace) :
    withLatest (recent ts) t = recent (ts ++ [t]) := by
  unfold recent
  rw [dedup_concat]
  have hnodup := ts.nodup_dedup
  generalize ts.dedup = ds at hnodup
  -- the traces that were kept, and those before them
  obtain ⟨old, kept, hsplit, hkept, hold⟩ : ∃ old kept, ds = old ++ kept ∧
      kept = ds.rtake maxPaths ∧ (old = [] ∨ kept.length = maxPaths) := by
    refine ⟨_, _, (ds.take_append_drop (ds.length - maxPaths)).symm, rfl, ?_⟩
    rw [List.length_drop]
    by_cases hlong : maxPaths ≤ ds.length
    · exact .inr (by omega)
    · exact .inl (by rw [show ds.length - maxPaths = 0 by omega, List.take_zero])
  have hfew : kept.length ≤ maxPaths := by
    rw [hkept, List.rtake, List.length_drop]
    omega
  have hless := le_length_filter_ne (hnodup.sublist (hsplit ▸ List.sublist_append_right old kept)) t
  have hle := List.length_filter_le (fun s => decide (s ≠ t)) kept
  rw [← hkept, hsplit, List.filter_append, List.append_assoc]
  have hlast : ((kept.filter (· ≠ t)) ++ [t]).length = (kept.filter (· ≠ t)).length + 1 :=
    List.length_append ..
  -- of eight at least seven are left, so that none of the older ones comes back
  rw [rtake_append_of_le]
  · unfold withLatest List.rtake
    dsimp only
    rw [hlast]
    split
    · rw [show (kept.filter (· ≠ t)).length + 1 - maxPaths = 1 by omega]
    · rw [show (kept.filter (· ≠ t)).length + 1 - maxPaths = 0 by omega, List.drop_zero]
  · rw [hlast]
    refine hold.imp (fun hnone => by rw [hnone, List.filter_nil]) fun hfull => ?_
    omega

theorem nodup_recent (ts : List Trace) : (recent ts).Nodup :=
  ts.nodup_dedup.sublist (List.drop_sublist ..)

theorem length_recent_le (ts : List Trace) : (recent ts).length ≤ maxPaths := by
  unfold recent List.rtake
  rw [List.length_drop]
  omega

theorem getLast?_recent (ts : List Trace) : (recent ts).getLast? = ts.getLast? := by
  rcases List.eq_nil_or_concat ts with rfl | ⟨ts, t, rfl⟩
  · rfl
  · unfold recent maxPaths
    rw [List.concat_eq_append, dedup_concat, List.rtake_concat_succ, List.getLast?_concat,
      List.getLast?_concat]

/-! ## §2. What is done to a cache. -/

variable [HashFunction]

/-- What may be done to a cache whose impure units are called. -/
inductive Action where
  | call (q : Query)
  | lookup (scope : ScopeId) (strategy : Strategy)
  | pin (pinned : Bool)
  /-- Time goes by. -/
  | wait (clock : Nat)
  | invalidate (scope : ScopeId)
  | clear
  | restore (snapshot : Snapshot)

/-- The texts of a call can be counted by a length of eight bytes. -/
def Action.IsRegular : Action → Prop
  | .call q => q.IsRegular
  | _ => True

variable {c : Cache} {rs : List Run} {scope : ScopeId} {q : Query} {t : Trace}

/-- The traces of the runs of a unit, the latest last. -/
def tracesOf (rs : List Run) (scope : ScopeId) (unit : Digest) : List Trace :=
  (rs.filter fun r => r.scope = scope ∧ r.unit.identity = unit).map (·.trace)

/-! ## §3. The runs account for both tables. -/

/-- The tables are what these runs have left. -/
structure Accounted (rs : List Run) (c : Cache) : Prop where
  recorded : Recorded rs c
  /-- The traces of a unit are the latest different ones of its runs. -/
  recent : ∀ scope unit, c.paths? scope unit = recent (tracesOf rs scope unit)
  regular : ∀ r ∈ rs, r.unit.IsRegular ∧ r.trace.IsRegular

/-- Runs of other scopes do not bear on what is the latest run of a scope. -/
theorem latest?_filter {scope' : ScopeId} (h : scope' ≠ scope) (rs : List Run) (key : Strategy) :
    latest? (rs.filter fun r => r.scope ≠ scope) scope' key = latest? rs scope' key := by
  unfold latest?
  rw [← List.filter_reverse, List.find?_filter]
  congr 1
  funext r
  by_cases hscope : r.scope = scope'
  · simp [hscope, h]
  · simp [hscope]

namespace Recorded

theorem invalidate (h : Recorded rs c) (scope : ScopeId) :
    Recorded (rs.filter fun r => r.scope ≠ scope) (c.invalidate scope).2 where
  traced := by
    intro scope' d t ht
    rw [paths?_invalidate] at ht
    split at ht
    · cases ht
    · rename_i hother
      obtain ⟨r, hr, rfl, hidentity, htrace⟩ := h.traced ht
      exact ⟨r, List.mem_filter.2 ⟨hr, decide_eq_true hother⟩, rfl, hidentity, htrace⟩
  kept := by
    intro scope' key r hr
    have hother : scope' ≠ scope := by
      obtain ⟨rfl, -, earlier, later, hsplit, -⟩ := latest?_eq_some hr
      have hmem : r ∈ rs.filter fun r => r.scope ≠ scope :=
        hsplit ▸ List.mem_append_right _ List.mem_cons_self
      exact of_decide_eq_true (List.mem_filter.1 hmem).2
    rw [latest?_filter hother] at hr
    unfold hit?
    rw [entry?_invalidate, if_neg hother]
    exact h.kept hr

/-- A snapshot brings no entry where there is one. -/
theorem restore (h : Recorded rs c) (s : Snapshot) : Recorded rs (c.restore s).2 where
  traced := by
    intro scope d t ht
    obtain ⟨entries, heq⟩ := c.restoreRecords_entries s.records
    rw [Cache.restore, heq] at ht
    exact h.traced ht
  kept := by
    intro scope key r hr
    obtain ⟨e, he, hvalue⟩ := h.kept hr
    obtain ⟨hentry, hkey⟩ := hit?_eq_some.1 he
    refine ⟨e, hit?_eq_some.2 ⟨?_, hkey⟩, hvalue⟩
    rw [Cache.restore, entry?_restoreRecords, hentry, Option.some_or]

/-- Whatever the runs were, each trace of a unit has a result under its key. -/
theorem servable (hash : HashFunction.CollisionFree) (h : Recorded rs c)
    (hregular : ∀ r ∈ rs, r.unit.IsRegular ∧ r.trace.IsRegular) {u : WorkUnit}
    (hu : u.IsRegular) (ht : t ∈ c.paths? scope u.identity) :
    ∃ e, c.hit? scope (executionPath u t) = some e := by
  obtain ⟨r, hr, rfl, hidentity, rfl⟩ := h.traced ht
  -- the unit of the run has the identity of this one, and so its source
  have hsource : r.unit.normalSource = u.normalSource := congrArg Outline.source
    (WorkUnit.outline_eq_of_identity hash (hregular r hr).1 hu hidentity)
  obtain ⟨r', hr'⟩ := latest?_of_mem hr
  obtain ⟨e, he, -⟩ := h.kept hr'
  rw [Run.key, executionPath_congr hsource] at he
  exact ⟨e, he⟩

end Recorded

theorem tracesOf_concat (rs : List Run) (r : Run) (scope : ScopeId) (unit : Digest) :
    tracesOf (rs ++ [r]) scope unit =
      if scope = r.scope ∧ unit = r.unit.identity then tracesOf rs scope unit ++ [r.trace]
      else tracesOf rs scope unit := by
  unfold tracesOf
  rw [List.filter_append, List.map_append]
  by_cases hown : scope = r.scope ∧ unit = r.unit.identity
  · rw [if_pos hown, List.filter_cons_of_pos (by simp [hown])]
    rfl
  · rw [if_neg hown, List.filter_cons_of_neg, List.filter_nil, List.map_nil, List.append_nil]
    rw [decide_eq_true_iff]
    exact fun h => hown ⟨h.1.symm, h.2.symm⟩

namespace Accounted

theorem new (pinned : Bool) (clock : Nat) : Accounted [] { pinned, clock } where
  recorded := Recorded.empty fun _ _ => rfl
  recent _ _ := rfl
  regular _ hr := nomatch hr

/-- A run moves its trace to the end, and everything else of a call leaves the traces alone. -/
theorem call (hash : HashFunction.CollisionFree) (h : Accounted rs c) (hq : q.IsRegular) :
    Accounted (rs ++ (c.run? q).toList) (c.ask q).2 where
  recorded := h.recorded.ask hash q
  recent := by
    intro scope unit
    obtain ⟨stats, ⟨r, hrun, -, -, -, hafter⟩ | ⟨hrun, hafter⟩⟩ := c.ask_cases q
    · rw [hrun, hafter, paths?_recordPath, Option.toList_some, tracesOf_concat]
      split
      · rename_i hown
        rw [← hown.1, ← hown.2, ← withLatest_recent, ← h.recent]
        rfl
      · exact h.recent scope unit
    · rw [hrun, Option.toList_none, List.append_nil, ← h.recent]
      rcases hafter with hafter | ⟨fields, hafter⟩
      · rw [hafter]
        rfl
      · rw [hafter]
        cases q.compute <;> rfl
  regular := by
    intro r hr
    rcases List.mem_append.1 hr with hr | hr
    · exact h.regular r hr
    · exact run?_isRegular hq (Option.mem_toList.1 hr)

end Accounted

/-! ## §4. What is served. -/

variable {u : WorkUnit} {env : Environment} {e : CacheEntry}

/-- The first trace that holds is served, if there is a result under its key. -/
theorem servePath_of_find {ts : List Trace} (h : ts.find? (·.all env.stillHolds) = some t)
    (hhit : c.hit? scope (executionPath u t) = some e) :
    (servePath env scope u ts c).1 = some e := by
  induction ts with
  | nil => cases h
  | cons s earlier ih =>
    unfold servePath
    rw [List.find?_cons] at h
    by_cases hholds : s.all env.stillHolds
    · rw [hholds] at h
      obtain rfl := Option.some.inj h
      obtain ⟨stats, heq⟩ := c.lookupOrMiss_eq scope (executionPath u s)
      rw [if_pos hholds, heq, hhit]
    · rw [Bool.eq_false_of_not_eq_true hholds] at h
      rw [if_neg hholds]
      exact ih h

theorem callByPath_of_find {compute : Except Error (Json × Trace)}
    (h : (c.paths? scope u.identity).reverse.find? (·.all env.stillHolds) = some t)
    (hhit : c.hit? scope (executionPath u t) = some e) :
    (c.callByPath scope u env compute).1 = ⟨.ok e.result, false⟩ := by
  have hserved := servePath_of_find h hhit
  unfold callByPath
  split
  · rename_i heq
    rw [heq] at hserved
    obtain rfl := Option.some.inj hserved
    rfl
  · rename_i heq
    rw [heq] at hserved
    cases hserved

theorem ask_of_impure {reason : String}
    (h : purity q.env c.pinned q.unit = .ok (.impure reason)) :
    c.ask q = c.callByPath q.scope q.unit q.env q.compute := by
  unfold ask call
  rw [h]

/-- Where no recorded trace holds an impure unit is run. -/
theorem computed_of_none_holds {reason : String}
    (himpure : purity q.env c.pinned q.unit = .ok (.impure reason))
    (h : ∀ t ∈ c.paths? q.scope q.unit.identity, t.all q.env.stillHolds = false) :
    (c.ask q).1 = ⟨q.compute.map (·.1), true⟩ := by
  rw [ask_of_impure himpure]
  obtain ⟨stats, ⟨hit, -, t, ht, hholds, -⟩ | ⟨e, hcompute, heq⟩ | ⟨value, t, hcompute, heq⟩⟩ :=
    c.callByPath_cases q.scope q.unit q.env q.compute
  · rw [h t ht] at hholds
    cases hholds
  · rw [heq, hcompute]
    rfl
  · rw [heq, hcompute]
    rfl

/-- A call that fails leaves entries and traces alone. -/
theorem ask_of_error {error : Error} (h : q.compute = .error error) :
    ∃ stats, (c.ask q).2 = { c with stats } := by
  obtain ⟨stats, ⟨r, -, -, -, hcompute, -⟩ | ⟨-, hafter | ⟨fields, hafter⟩⟩⟩ := c.ask_cases q
  · rw [h] at hcompute
    cases hcompute
  · exact ⟨stats, hafter⟩
  · rw [h] at hafter
    exact ⟨stats, hafter⟩

/-- What holds of a cache in which these runs are live. -/
structure Servable (rs : List Run) (c : Cache) : Prop where
  /-- The traces of a unit are the last eight different ones of its runs, -/
  recent : ∀ scope unit, c.paths? scope unit = recent (tracesOf rs scope unit)
  distinct : ∀ scope unit, (c.paths? scope unit).Nodup
  bounded : ∀ scope unit, (c.paths? scope unit).length ≤ 8
  /-- and that of the latest run is the last. -/
  latest : ∀ scope unit, (c.paths? scope unit).getLast? = (tracesOf rs scope unit).getLast?
  /-- A look-up under the key of a recorded trace finds an entry. -/
  stored : ∀ scope (u : WorkUnit), u.IsRegular → ∀ t ∈ c.paths? scope u.identity,
    ∃ e, (c.lookup scope (executionPath u t)).1 = .ok (some e)
  /-- An impure unit is run where no recorded trace holds, -/
  runs : ∀ q : Query, q.unit.IsRegular → ∀ reason,
    purity q.env c.pinned q.unit = .ok (.impure reason) →
      ((c.ask q).1.computed = true ↔
        ∀ t ∈ c.paths? q.scope q.unit.identity, t.all q.env.stillHolds = false)
  /-- and is served what stands under the latest one that holds. -/
  serves : ∀ q : Query, q.unit.IsRegular → ∀ reason,
    purity q.env c.pinned q.unit = .ok (.impure reason) → ∀ earlier t later,
      c.paths? q.scope q.unit.identity = earlier ++ t :: later → t.all q.env.stillHolds = true →
        (∀ t' ∈ later, t'.all q.env.stillHolds = false) →
          ∃ e, (c.lookup q.scope (executionPath q.unit t)).1 = .ok (some e) ∧
            (c.ask q).1 = ⟨.ok e.result, false⟩
  /-- A call whose run fails leaves entries and traces alone. -/
  fails : ∀ (q : Query) error, q.compute = .error error →
    (∀ scope digest, entry? (c.ask q).2 scope digest = c.entry? scope digest) ∧
      ∀ scope unit, (c.ask q).2.paths? scope unit = c.paths? scope unit

namespace Accounted

/-- The latest trace that holds is served. -/
theorem served (hash : HashFunction.CollisionFree) (h : Accounted rs c) (hq : q.unit.IsRegular)
    {reason : String} (himpure : purity q.env c.pinned q.unit = .ok (.impure reason))
    (hfind : (c.paths? q.scope q.unit.identity).reverse.find? (·.all q.env.stillHolds) = some t) :
    ∃ e, (c.lookup q.scope (executionPath q.unit t)).1 = .ok (some e) ∧
      (c.ask q).1 = ⟨.ok e.result, false⟩ := by
  have ht := List.mem_reverse.1 (List.mem_of_find?_eq_some hfind)
  obtain ⟨e, he⟩ := h.recorded.servable hash h.regular hq ht
  refine ⟨e, lookup_eq_some.2 he, ?_⟩
  rw [ask_of_impure himpure]
  exact callByPath_of_find hfind he

theorem computed_iff (hash : HashFunction.CollisionFree) (h : Accounted rs c)
    (hq : q.unit.IsRegular) {reason : String}
    (himpure : purity q.env c.pinned q.unit = .ok (.impure reason)) :
    (c.ask q).1.computed = true ↔
      ∀ t ∈ c.paths? q.scope q.unit.identity, t.all q.env.stillHolds = false := by
  constructor
  · intro hcomputed t ht
    by_contra hholds
    -- of the traces that hold the latest would be found, and served
    have hsome : ((c.paths? q.scope q.unit.identity).reverse.find?
        (·.all q.env.stillHolds)).isSome :=
      List.find?_isSome.2 ⟨t, List.mem_reverse.2 ht, Bool.eq_true_of_not_eq_false hholds⟩
    obtain ⟨t', hfind⟩ := Option.isSome_iff_exists.1 hsome
    obtain ⟨e, -, hserved⟩ := h.served hash hq himpure hfind
    rw [hserved] at hcomputed
    cases hcomputed
  · intro hnone
    rw [computed_of_none_holds himpure hnone]

theorem servable (hash : HashFunction.CollisionFree) (h : Accounted rs c) : Servable rs c := by
  constructor
  case recent => exact h.recent
  case distinct =>
    intro scope unit
    rw [h.recent]
    exact nodup_recent _
  case bounded =>
    intro scope unit
    rw [h.recent]
    exact length_recent_le _
  case latest =>
    intro scope unit
    rw [h.recent]
    exact getLast?_recent _
  case stored =>
    intro scope u hu t ht
    obtain ⟨e, he⟩ := h.recorded.servable hash h.regular hu ht
    exact ⟨e, lookup_eq_some.2 he⟩
  case runs =>
    intro q hq reason himpure
    exact h.computed_iff hash hq himpure
  case serves =>
    intro q hq reason himpure earlier t later hsplit hholds hnone
    refine h.served hash hq himpure (List.find?_eq_some_iff_append.2
      ⟨hholds, later.reverse, earlier.reverse, ?_, fun t' ht' => ?_⟩)
    · rw [hsplit]
      simp
    · rw [hnone t' (List.mem_reverse.1 ht')]
      rfl
  case fails =>
    intro q error herror
    obtain ⟨stats, heq⟩ := ask_of_error herror
    rw [heq]
    exact ⟨fun _ _ => rfl, fun _ _ => rfl⟩

end Accounted

end Cache

end Notebook
