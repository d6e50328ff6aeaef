/-
  Notebook.Proofs.Cache.Counting — what the counters of a cache count.

  Every look-up counts once, as a hit or as a miss.  A call may look up more than once: what is to
  be computed is looked up again before it is, so that a key with nothing under it counts two
  misses, and an impure unit is looked up under each recorded run that still holds until one is
  found.  Only where no recorded run holds, a miss is counted without any look-up.  So the hits are
  the calls that were served, but the misses are not the calls that were not.

  Main results:
    * `getOrCompute_eq`, `callByPath_counted` — what one call counts,
    * `inquire_counted`, `inquireAll_counted` — the hits and misses of inquiries: the hits are those
      that were served,
    * `inquire_counts_iff` — which inquiries count once,
    * `Accounted.countsOnce_impure` — those of impure units do, as long as runs have their results,
    * `newKey_counts_twice` — one that does not.
-/
import Notebook.Digest.Sha256
import Notebook.Proofs.Cache.Servable

namespace Notebook

/-- How often the cache was asked. -/
def CacheStats.asked (s : CacheStats) : Nat := s.hits + s.misses

namespace Cache

variable {c c' c₁ : Cache} {scope : ScopeId} {strategy : Strategy} {h h' m m' : Nat}

/-! ## §1. Hits and misses. -/

/-- From one cache to the next so many hits and so many misses were counted. -/
structure Counted (hits misses : Nat) (c c' : Cache) : Prop where
  hits : c'.stats.hits = c.stats.hits + hits
  misses : c'.stats.misses = c.stats.misses + misses

namespace Counted

theorem refl (c : Cache) : Counted 0 0 c c := ⟨rfl, rfl⟩

theorem trans (hc : Counted h m c c₁) (hc' : Counted h' m' c₁ c') :
    Counted (h + h') (m + m') c c' where
  hits := by rw [hc'.hits, hc.hits, Nat.add_assoc]
  misses := by rw [hc'.misses, hc.misses, Nat.add_assoc]

theorem countHit (c : Cache) : Counted 1 0 c c.countHit := ⟨rfl, rfl⟩

theorem countMiss (c : Cache) : Counted 0 1 c c.countMiss := ⟨rfl, rfl⟩

/-- Storing a result asks nothing. -/
theorem keep (c : Cache) (scope : ScopeId) (strategy : Strategy) (compute : Except Error Json) :
    Counted 0 0 c (c.keep scope strategy compute) := by
  cases compute with
  | ok value => exact ⟨rfl, rfl⟩
  | error e => exact refl c

theorem asked (hc : Counted h m c c') : c'.stats.asked = c.stats.asked + (h + m) := by
  have hhits := hc.hits
  have hmisses := hc.misses
  unfold CacheStats.asked
  omega

end Counted

/-! ## §2. One look-up. -/

/-- What a look-up finds, and what it counts. -/
theorem lookup_snd_eq (c : Cache) (scope : ScopeId) (strategy : Strategy) :
    (c.lookup scope strategy).2 =
      if (c.hit? scope strategy).isSome then c.countHit else c.countMiss := by
  unfold lookup hit?
  cases c.entry? scope strategy.digest with
  | none => rfl
  | some e => by_cases heq : e.strategy = strategy <;> simp [Option.filter, heq]

theorem lookupOrMiss_eq_count (c : Cache) (scope : ScopeId) (strategy : Strategy) :
    c.lookupOrMiss scope strategy = ( c.hit? scope strategy,
      if (c.hit? scope strategy).isSome then c.countHit else c.countMiss) := by
  obtain ⟨stats, heq⟩ := c.lookupOrMiss_eq scope strategy
  have hcounted : (c.lookupOrMiss scope strategy).2 = (c.lookup scope strategy).2 := by
    unfold lookupOrMiss
    split <;> simp_all
  rw [lookup_snd_eq, heq] at hcounted
  rw [heq]
  exact Prod.ext rfl hcounted

theorem lookupOrMiss_of_hit {e : CacheEntry} (h : c.hit? scope strategy = some e) :
    c.lookupOrMiss scope strategy = (some e, c.countHit) := by
  rw [lookupOrMiss_eq_count, h]
  rfl

theorem lookupOrMiss_of_miss (h : c.hit? scope strategy = none) :
    c.lookupOrMiss scope strategy = (none, c.countMiss) := by
  rw [lookupOrMiss_eq_count, h]
  rfl

theorem lookup_counted (c : Cache) (scope : ScopeId) (strategy : Strategy) :
    Counted (if (c.hit? scope strategy).isSome then 1 else 0)
      (if (c.hit? scope strategy).isSome then 0 else 1) c (c.lookup scope strategy).2 := by
  rw [lookup_snd_eq]
  split
  · exact .countHit c
  · exact .countMiss c

/-- **What is computed counts two misses**, one for each time that it was looked up. -/
theorem getOrCompute_eq (c : Cache) (scope : ScopeId) (strategy : Strategy)
    (compute : Except Error Json) : c.getOrCompute scope strategy compute =
      match c.hit? scope strategy with
      | some e => (⟨.ok e.result, false⟩, c.countHit)
      | none => (⟨compute, true⟩, c.countMiss.countMiss.keep scope strategy compute) := by
  unfold getOrCompute
  cases hfound : c.hit? scope strategy with
  | some e => rw [lookupOrMiss_of_hit hfound]
  | none =>
    -- a miss puts nothing under the key
    have hagain : c.countMiss.hit? scope strategy = none := hfound
    rw [lookupOrMiss_of_miss hfound]
    dsimp only
    rw [lookupOrMiss_of_miss hagain]
    cases compute <;> rfl

theorem getOrCompute_counted (c : Cache) (scope : ScopeId) (strategy : Strategy)
    (compute : Except Error Json) :
    Counted (if (c.hit? scope strategy).isSome then 1 else 0)
      (if (c.hit? scope strategy).isSome then 0 else 2) c
      (c.getOrCompute scope strategy compute).2 := by
  rw [getOrCompute_eq]
  cases c.hit? scope strategy with
  | some e => exact .countHit c
  | none =>
    exact ((Counted.countMiss c).trans (.countMiss _)).trans (.keep _ scope strategy compute)

/-! ## §3. Recorded runs. -/

section Paths

variable [HashFunction] {env : Environment} {u : WorkUnit} {ts : List Trace}

/-- The traces that still hold, in the order in which they are tried: the latest first. -/
def holding (c : Cache) (q : Query) : List Trace :=
  (c.paths? q.scope q.unit.identity).reverse.filter fun t => t.all q.env.stillHolds

/-- What is found under the key of a trace. -/
def pathHit? (c : Cache) (scope : ScopeId) (u : WorkUnit) (t : Trace) : Option CacheEntry :=
  c.hit? scope (executionPath u t)

/-- How many traces are looked up before one is found. -/
def vainly (c : Cache) (scope : ScopeId) (u : WorkUnit) (ts : List Trace) : Nat :=
  (ts.takeWhile fun t => (c.pathHit? scope u t).isNone).length

/-- Trying traces counts a miss for each that is looked up in vain, and a hit for one that is
found. -/
theorem servePath_counted (env : Environment) (scope : ScopeId) (u : WorkUnit) (ts : List Trace)
    (c : Cache) :
    let tried := ts.filter fun t => t.all env.stillHolds
    let served := servePath env scope u ts c
    served.1 = tried.findSome? ( c.pathHit? scope u) ∧ served.2.1 = !tried.isEmpty ∧
      Counted (if served.1.isSome then 1 else 0) (c.vainly scope u tried) c served.2.2 := by
  -- on the traces, over all caches: a miss is counted before the next trace is tried
  induction ts generalizing c with
  | nil => exact ⟨rfl, rfl, .refl c⟩
  | cons t earlier ih =>
    dsimp only at ih ⊢
    rw [servePath]
    by_cases hholds : t.all env.stillHolds
    · have htried : (t :: earlier).filter (fun t => t.all env.stillHolds) =
          t :: earlier.filter fun t => t.all env.stillHolds := List.filter_cons_of_pos hholds
      rw [if_pos hholds, htried]
      cases hfound : c.pathHit? scope u t with
      | some e =>
        rw [lookupOrMiss_of_hit hfound, List.findSome?_cons, hfound, vainly,
          List.takeWhile_cons_of_neg (by simp [hfound])]
        exact ⟨rfl, rfl, .countHit c⟩
      | none =>
        obtain ⟨hfirst, -, hcounted⟩ := ih c.countMiss
        rw [lookupOrMiss_of_miss hfound, List.findSome?_cons, hfound, vainly,
          List.takeWhile_cons_of_pos (by simp [hfound]), List.length_cons, Nat.add_comm]
        have hboth := (Counted.countMiss c).trans hcounted
        rw [Nat.zero_add] at hboth
        exact ⟨hfirst, rfl, hboth⟩
    · have htried : (t :: earlier).filter (fun t => t.all env.stillHolds) =
          earlier.filter fun t => t.all env.stillHolds := List.filter_cons_of_neg hholds
      rw [if_neg hholds, htried]
      exact ih c

/-- A call of an impure unit counts a hit if it is served, and a miss for each trace that it looked
up in vain; one that looked up nothing counts a miss all the same. -/
theorem callByPath_counted (c : Cache) (q : Query) :
    let served := c.callByPath q.scope q.unit q.env q.compute
    served.1.computed = ((c.holding q).findSome? ( c.pathHit? q.scope q.unit)).isNone ∧
      Counted (if served.1.computed then 0 else 1)
        (if c.holding q = [] then 1 else c.vainly q.scope q.unit (c.holding q)) c served.2 := by
  intro served
  have hpath := servePath_counted q.env q.scope q.unit (c.paths? q.scope q.unit.identity).reverse c
  show (c.callByPath q.scope q.unit q.env q.compute).1.computed = _ ∧
    Counted (if (c.callByPath q.scope q.unit q.env q.compute).1.computed then 0 else 1) _ c
      (c.callByPath q.scope q.unit q.env q.compute).2
  unfold callByPath
  rcases hserve : servePath q.env q.scope q.unit
    (c.paths? q.scope q.unit.identity).reverse c with ⟨_ | hit, lookedUp, c'⟩
  · rw [hserve] at hpath
    obtain ⟨hnone, hlooked, hcounted⟩ := hpath
    change none = (c.holding q).findSome? _ at hnone
    change lookedUp = !(c.holding q).isEmpty at hlooked
    -- the run is stored and recorded without asking for anything
    have hmissed : Counted 0 (if c.holding q = [] then 1 else c.vainly q.scope q.unit (c.holding q))
        c (if lookedUp then c' else c'.countMiss) := by
      by_cases hempty : c.holding q = []
      · rw [if_pos hempty, hlooked, hempty]
        have hc' : Counted 0 (c.vainly q.scope q.unit (c.holding q)) c c' := hcounted
        rw [hempty] at hc'
        exact hc'.trans (.countMiss c')
      · rw [if_neg hempty, hlooked, if_pos (by simpa using hempty)]
        exact hcounted
    rw [← hnone]
    dsimp only
    cases q.compute with
    | error e => exact ⟨rfl, hmissed⟩
    | ok ran => exact ⟨rfl, ⟨hmissed.hits, hmissed.misses⟩⟩
  · rw [hserve] at hpath
    obtain ⟨hsome, -, hcounted⟩ := hpath
    change some hit = (c.holding q).findSome? _ at hsome
    have hne : c.holding q ≠ [] := by
      intro hempty
      rw [hempty] at hsome
      cases hsome
    rw [← hsome, if_neg hne]
    exact ⟨rfl, hcounted⟩

end Paths

/-! ## §4. Inquiries. -/

/-- What a cache is asked. -/
inductive Inquiry where
  | lookup (scope : ScopeId) (strategy : Strategy)
  | getOrCompute (scope : ScopeId) (strategy : Strategy) (compute : Except Error Json)
  | call (q : Query)

variable [HashFunction]

/-- The cache after an inquiry. -/
def inquire (c : Cache) : Inquiry → Cache
  | .lookup scope strategy => (c.lookup scope strategy).2
  | .getOrCompute scope strategy compute => (c.getOrCompute scope strategy compute).2
  | .call q => (c.ask q).2

/-- The cache after inquiries in turn. -/
def inquireAll (c : Cache) (inquiries : List Inquiry) : Cache := inquiries.foldl inquire c

/-- Whether an inquiry gets a stored entry, and nothing is computed for it. -/
def serves (c : Cache) : Inquiry → Bool
  | .lookup scope strategy =>
    match (c.lookup scope strategy).1 with
    | .ok (some _) => true
    | _ => false
  | .getOrCompute scope strategy compute => !(c.getOrCompute scope strategy compute).1.computed
  | .call q => !(c.ask q).1.computed

/-- Whether what is asked for has an identity; only a unit that is called may have none. -/
def identifies (c : Cache) : Inquiry → Bool
  | .call q => (purity q.env c.pinned q.unit).toOption.isSome
  | _ => true

/-- The misses that an inquiry counts. -/
def missesOf (c : Cache) : Inquiry → Nat
  | .lookup scope strategy => if (c.hit? scope strategy).isSome then 0 else 1
  | .getOrCompute scope strategy _ => if (c.hit? scope strategy).isSome then 0 else 2
  | .call q =>
    match purity q.env c.pinned q.unit with
    | .ok (.pure d) => if (c.hit? q.scope (.content d)).isSome then 0 else 2
    | .ok (.impure _) => if c.holding q = [] then 1 else c.vainly q.scope q.unit (c.holding q)
    | .error _ => 0

/-- One look-up is made, or none is needed: an entry to be computed is there, and a unit that goes
by its runs has one that holds at most, or finds the latest one that does. -/
def CountsOnce (c : Cache) : Inquiry → Prop
  | .lookup _ _ => True
  | .getOrCompute scope strategy _ => (c.hit? scope strategy).isSome
  | .call q =>
    match purity q.env c.pinned q.unit with
    | .ok (.pure d) => (c.hit? q.scope (.content d)).isSome
    | .ok (.impure _) => (c.holding q).length ≤ 1 ∨
        ∃ t, (c.holding q).head? = some t ∧ (c.pathHit? q.scope q.unit t).isSome
    | .error _ => True

variable {q : Query} {i : Inquiry}

theorem serves_lookup (c : Cache) (scope : ScopeId) (strategy : Strategy) :
    c.serves (.lookup scope strategy) = (c.hit? scope strategy).isSome := by
  show (match (c.lookup scope strategy).1 with
    | .ok (some _) => true
    | _ => false) = _
  split
  · rename_i e heq
    rw [lookup_eq_some.1 heq]
    rfl
  · rename_i hnone
    rw [Option.eq_none_iff_forall_ne_some.2 fun e he => hnone e (lookup_eq_some.2 he)]
    rfl

theorem serves_getOrCompute (c : Cache) (scope : ScopeId) (strategy : Strategy)
    (compute : Except Error Json) :
    c.serves (.getOrCompute scope strategy compute) = (c.hit? scope strategy).isSome := by
  show (!(c.getOrCompute scope strategy compute).1.computed) = _
  rw [getOrCompute_eq]
  cases c.hit? scope strategy <;> rfl

/-- A call of a pure unit is a computation under its content. -/
theorem ask_of_pure {d : Digest} (h : purity q.env c.pinned q.unit = .ok (.pure d)) :
    c.ask q = c.getOrCompute q.scope (.content d) (q.compute.map (·.1)) := by
  unfold ask call
  rw [h]

/-- A unit without an identity is run, and nothing is counted. -/
theorem ask_of_unidentified {error : Error} (h : purity q.env c.pinned q.unit = .error error) :
    c.ask q = (⟨q.compute.map (·.1), true⟩, c) := by
  unfold ask call
  rw [h]

/-- **The hits and misses of one inquiry.**  A hit is counted just where it is served. -/
theorem inquire_counted (c : Cache) (i : Inquiry) :
    Counted (if c.serves i then 1 else 0) (c.missesOf i) c (c.inquire i) := by
  cases i with
  | lookup scope strategy =>
    rw [serves_lookup]
    exact lookup_counted c scope strategy
  | getOrCompute scope strategy compute =>
    rw [serves_getOrCompute]
    exact getOrCompute_counted c scope strategy compute
  | call q =>
    show Counted (if !(c.ask q).1.computed then 1 else 0) (c.missesOf (.call q)) c (c.ask q).2
    cases hpurity : purity q.env c.pinned q.unit with
    | error e =>
      rw [ask_of_unidentified hpurity, missesOf, hpurity]
      exact .refl c
    | ok p =>
      cases p with
      | pure d =>
        have hserves := serves_getOrCompute c q.scope (.content d) (q.compute.map (·.1))
        rw [serves] at hserves
        rw [ask_of_pure hpurity, hserves, missesOf, hpurity]
        exact getOrCompute_counted c q.scope (.content d) (q.compute.map (·.1))
      | impure reason =>
        obtain ⟨-, hcounted⟩ := callByPath_counted c q
        rw [ask_of_impure hpurity, missesOf, hpurity]
        cases hcomputed : (c.callByPath q.scope q.unit q.env q.compute).1.computed <;>
          rw [hcomputed] at hcounted <;> exact hcounted

/-- How many of some inquiries in turn are served. -/
def servedCount : Cache → List Inquiry → Nat
  | _, [] => 0
  | c, i :: rest => (if c.serves i then 1 else 0) + servedCount (c.inquire i) rest

/-- How many misses some inquiries in turn count. -/
def missedCount : Cache → List Inquiry → Nat
  | _, [] => 0
  | c, i :: rest => c.missesOf i + missedCount (c.inquire i) rest

/-- **The hits of a history are the inquiries that were served**, and the misses add up. -/
theorem inquireAll_counted (c : Cache) (inquiries : List Inquiry) :
    Counted (c.servedCount inquiries) (c.missedCount inquiries) c (c.inquireAll inquiries) := by
  induction inquiries generalizing c with
  | nil => exact .refl c
  | cons i rest ih => exact (inquire_counted c i).trans (ih (c.inquire i))

/-! ## §5. What counts once. -/

omit [HashFunction] in
theorem count_of_found {found : Option CacheEntry} :
    (if found.isSome then 1 else 0) + (if found.isSome then 0 else 2) = 1 ↔ found.isSome := by
  cases found <;> simp

/-- The traces that are tried in vain are all of them, if none is found. -/
theorem vainly_of_none {u : WorkUnit} {ts : List Trace}
    (h : ts.findSome? ( c.pathHit? scope u) = none) : c.vainly scope u ts = ts.length := by
  unfold vainly
  rw [List.takeWhile_eq_self_iff.2]
  intro t ht
  rw [List.findSome?_eq_none_iff.1 h t ht]
  rfl

/-- The first trace is found, or it is tried in vain, too. -/
theorem vainly_cons (c : Cache) (scope : ScopeId) (u : WorkUnit) (t : Trace) (ts : List Trace) :
    c.vainly scope u (t :: ts) =
      if (c.pathHit? scope u t).isSome then 0 else c.vainly scope u ts + 1 := by
  unfold vainly
  cases hfound : c.pathHit? scope u t with
  | some e => simp [List.takeWhile_cons_of_neg, hfound]
  | none => simp [List.takeWhile_cons_of_pos, hfound]

/-- Of traces that are tried in turn one look-up is made, if there is one of them or the first one
is found. -/
theorem tried_once_iff (c : Cache) (scope : ScopeId) (u : WorkUnit) (t : Trace)
    (earlier : List Trace) :
    (if ((t :: earlier).findSome? ( c.pathHit? scope u)).isSome then 1 else 0) +
        c.vainly scope u (t :: earlier) = 1 ↔
      earlier = [] ∨ (c.pathHit? scope u t).isSome := by
  rw [vainly_cons, List.findSome?_cons]
  cases hfirst : c.pathHit? scope u t with
  | some e => simp
  | none =>
    dsimp only
    cases hfound : earlier.findSome? ( c.pathHit? scope u) with
    | some e =>
      -- the one that is found is not the first, and the first was looked up, too
      have hne : earlier ≠ [] := by
        rintro rfl
        cases hfound
      simp [hne]
    | none =>
      rw [vainly_of_none hfound]
      simp

/-- **Which inquiries count once.** -/
theorem count_eq_iff (c : Cache) (i : Inquiry) :
    (if c.serves i then 1 else 0) + c.missesOf i = (if c.identifies i then 1 else 0) ↔
      c.CountsOnce i := by
  cases i with
  | lookup scope strategy =>
    rw [serves_lookup]
    simp only [missesOf, identifies, CountsOnce, if_true, iff_true]
    split <;> rfl
  | getOrCompute scope strategy compute =>
    rw [serves_getOrCompute]
    exact count_of_found
  | call q =>
    show (if !(c.ask q).1.computed then 1 else 0) + c.missesOf (.call q) =
      (if (purity q.env c.pinned q.unit).toOption.isSome then 1 else 0) ↔ _
    cases hpurity : purity q.env c.pinned q.unit with
    | error e =>
      rw [ask_of_unidentified hpurity, missesOf, CountsOnce, hpurity]
      exact iff_of_true rfl trivial
    | ok p =>
      cases p with
      | pure d =>
        have hserves := serves_getOrCompute c q.scope (.content d) (q.compute.map (·.1))
        rw [serves] at hserves
        rw [ask_of_pure hpurity, hserves, missesOf, CountsOnce, hpurity]
        exact count_of_found
      | impure reason =>
        obtain ⟨hcomputed, -⟩ := callByPath_counted c q
        rw [ask_of_impure hpurity, hcomputed, missesOf, CountsOnce, hpurity]
        cases hholding : c.holding q with
        | nil => exact iff_of_true rfl (.inl (Nat.zero_le 1))
        | cons t earlier =>
          have honce := c.tried_once_iff q.scope q.unit t earlier
          rw [if_neg (List.cons_ne_nil _ _), Option.not_isNone]
          refine honce.trans ?_
          simp

/-- **What the counters count.**  After any history an inquiry counts a hit just where it is served,
whatever else it counts, and it counts just once where one look-up is made: always for a look-up,
for a computation where nothing is computed, and for a unit that goes by its runs where one of them
holds at most, or the latest one that holds is found. -/
theorem inquire_counts_iff (c : Cache) (earlier : List Inquiry) (i : Inquiry) :
    let before := c.inquireAll earlier
    let after := c.inquireAll (earlier ++ [i])
    after.stats.hits = before.stats.hits + (if before.serves i then 1 else 0) ∧
      after.stats.misses = before.stats.misses + before.missesOf i ∧
      (after.stats.asked = before.stats.asked + (if before.identifies i then 1 else 0) ↔
        before.CountsOnce i) := by
  intro before after
  have hafter : after = before.inquire i := List.foldl_concat ..
  have hcounted := before.inquire_counted i
  rw [← hafter] at hcounted
  refine ⟨hcounted.hits, hcounted.misses, ?_⟩
  rw [hcounted.asked, Nat.add_left_cancel_iff]
  exact before.count_eq_iff i

omit [HashFunction] in
/-- A key with nothing under it counts two misses, though one result was asked for. -/
theorem newKey_counts_twice :
    let _ := Sha256.hashFunction
    let i := Inquiry.getOrCompute ⟨"s"⟩ (.content .zero) (.ok (.nat 1))
    let new : Cache := {}
    new.identifies i = true ∧ new.serves i = false ∧ (new.inquireAll [i]).stats = ⟨0, 2, 1⟩ ∧
      ¬ (new.inquireAll [i]).stats.asked = new.stats.asked + 1 := by
  decide

/-- The runs of an impure unit are counted as they are meant to be, as long as each recorded run has
its result under its key. -/
theorem Accounted.countsOnce_impure {rs : List Run} (hash : HashFunction.CollisionFree)
    (h : Accounted rs c) (hq : q.unit.IsRegular) {reason : String}
    (himpure : purity q.env c.pinned q.unit = .ok (.impure reason)) :
    c.CountsOnce (.call q) := by
  rw [CountsOnce, himpure]
  cases hholding : c.holding q with
  | nil => exact .inl (Nat.zero_le 1)
  | cons t earlier =>
    have hmem : t ∈ c.holding q := hholding ▸ List.mem_cons_self
    have ht : t ∈ c.paths? q.scope q.unit.identity :=
      List.mem_reverse.1 (List.mem_filter.1 hmem).1
    obtain ⟨e, he⟩ := h.recorded.servable hash h.regular hq ht
    refine .inr ⟨t, rfl, ?_⟩
    rw [pathHit?, he]
    rfl

end Cache

end Notebook
