/-
  Notebook.Proofs.Cache.Paths — whose result a recorded run serves.

  For an impure unit two tables work together.  One has the traces of past runs under the structural
  identity of a unit; the other has the results, under a digest of the normal source and the trace.
  The first one knows the names and modules of a unit and the second one does not.  So when two
  units have one normal source and runs with one trace, the later run takes the place of the earlier
  one, and the first unit is served what the second one gave.

  `Recorded` ties both tables to the runs that were made: each trace is that of a run of its unit,
  and under each key stands the result of the latest run that has it.

  Main results:
    * `executionPath_injective` — a key tells the normal source and the trace,
    * `Cache.ask_cases` — what a call does to the cache,
    * `Recorded.ask` / `Recorded.asks` — every call keeps the tables tied to the runs,
    * `served_latest` — what is served is the result of the latest run with the source of the unit
      and a trace that holds now, and the unit itself had a run with that trace.
-/
import Mathlib
import Notebook.Proofs.Cache.Store
import Notebook.Proofs.Identity.Coverage

namespace Notebook

/-! ## §1. What a key tells. -/

/-- Objects with one text have the same fields in the same order, sorted or not. -/
theorem Json.object_text_injective {as bs : List (String × Json)} (ha : haveStandard as = true)
    (hb : haveStandard bs = true) (h : (Json.object as).text = (Json.object bs).text) :
    as = bs := by
  have htexts := congrArg String.toList h
  cases as with
  | nil =>
    cases bs with
    | nil => rfl
    | cons b rest' =>
      rw [toList_object_nil, toList_object_cons, toList_quote] at htexts
      simp at htexts
  | cons a rest =>
    cases bs with
    | nil =>
      rw [toList_object_nil, toList_object_cons, toList_quote] at htexts
      simp at htexts
    | cons b rest' =>
      rw [toList_object_cons, toList_object_cons] at htexts
      refine (fields_append_injective (a :: rest) (b :: rest') (s := []) (t := []) ha hb ?_).1
      have hcolon : ":".toList = [':'] := rfl
      simp only [fieldTexts, afterCommas_cons, String.toList_append, hcolon, List.cons_append,
        List.append_assoc, List.nil_append]
      rw [(List.cons.inj htexts).2]

theorem Digest.toJson_isStandard (d : Digest) : d.toJson.isStandard = true := by
  unfold Digest.toJson
  rw [Json.isStandard, Json.areStandard_iff]
  intro v hv
  obtain ⟨b, -, rfl⟩ := List.mem_map.1 hv
  rfl

theorem Digest.toJson_injective {d e : Digest} (h : d.toJson = e.toJson) : d = e := by
  unfold Digest.toJson Json.nat at h
  have hbytes : d.bytes = e.bytes := by
    refine List.map_injective_iff.2 (fun a b hab => ?_) (Json.array.inj h)
    exact UInt8.toNat_inj.1 (Int.ofNat_inj.1 (Json.int.inj hab))
  cases d; cases e; simp_all

/-- The written form of an operation tells the operation. -/
theorem TraceOp.toJson_injective {a b : TraceOp} (h : a.toJson = b.toJson) : a = b := by
  -- operations of different kinds differ in their first field
  cases a <;> cases b <;>
    simp only [toJson, Json.object.injEq, List.cons.injEq, Prod.mk.injEq, Json.string.injEq,
      true_and, and_true, reduceCtorEq, and_false] at h
  case importModule.importModule =>
    rw [h.1, Json.ofOption_injective h.2]
  case call.call =>
    rw [h.1, Digest.toJson_injective h.2.1, Digest.toJson_injective h.2.2]
  case read.read =>
    rw [h.1, Digest.toJson_injective h.2]
  all_goals
    simp at h

/-- So does its text. -/
theorem TraceOp.text_injective {a b : TraceOp} (h : a.toJson.text = b.toJson.text) : a = b := by
  have hstandard : ∀ op : TraceOp, ∃ fields, op.toJson = .object fields ∧
      Json.haveStandard fields = true := by
    intro op
    cases op <;>
      exact ⟨_, rfl, by simp [Json.haveStandard, Json.isStandard, Json.ofOption_isStandard,
        Digest.toJson_isStandard]⟩
  obtain ⟨as, ha, has⟩ := hstandard a
  obtain ⟨bs, hb, hbs⟩ := hstandard b
  rw [ha, hb] at h
  refine TraceOp.toJson_injective ?_
  rw [ha, hb, Json.object_text_injective has hbs h]

/-- Traces whose operations have texts that a length can count. -/
def Trace.IsRegular (t : Trace) : Prop := ∀ op ∈ t, IsShort op.toJson.text

instance (t : Trace) : Decidable t.IsRegular :=
  inferInstanceAs (Decidable (∀ op ∈ t, IsShort op.toJson.text))

section Keys

variable [HashFunction]

/-- Digests of different domains are different, whatever the fields. -/
theorem Digest.ofFields_ne (hash : HashFunction.CollisionFree) {domain domain' : String}
    (hshort : IsShort domain) (hshort' : IsShort domain') (hne : domain ≠ domain')
    (fs gs : List Field) : Digest.ofFields domain fs ≠ Digest.ofFields domain' gs := by
  intro h
  have hmessage := hash.injective _ _ h
  unfold frame Field.bytes at hmessage
  rw [List.flatMap_cons, List.flatMap_cons, List.append_assoc, List.append_assoc] at hmessage
  have htag : (utf8 "domain").length < 2 ^ 64 := by decide
  have hbytes := (framed_append_injective hshort hshort'
    (framed_append_injective htag htag hmessage).2).1
  exact hne (utf8_injective hbytes)

/-- The digest of a trace tells the trace. -/
theorem Trace.digest_injective (hash : HashFunction.CollisionFree) {s t : Trace}
    (hs : s.IsRegular) (ht : t.IsRegular) (h : s.digest = t.digest) : s = t := by
  have hregular : ∀ t : Trace, t.IsRegular →
      ∀ f ∈ t.map fun op => Field.ofText "op" op.toJson.text, f.IsRegular [] := by
    intro t ht f hf
    obtain ⟨op, hop, rfl⟩ := List.mem_map.1 hf
    exact Field.isRegular_of_short (by decide) (by decide) (ht op hop)
  have hfields := Digest.ofFields_injective hash (hregular s hs) (hregular t ht) h
  exact List.map_injective_iff.2
    (fun _ _ hop => TraceOp.text_injective (Field.ofText_injective hop)) hfields

/-- A key tells the normal source and the trace. -/
theorem executionPath_injective (hash : HashFunction.CollisionFree) {u v : WorkUnit} {s t : Trace}
    (hu : u.IsRegular) (hv : v.IsRegular) (hs : s.IsRegular) (ht : t.IsRegular)
    (h : executionPath u s = executionPath v t) : u.normalSource = v.normalSource ∧ s = t := by
  have hregular : ∀ (u : WorkUnit) (t : Trace), u.IsRegular →
      ∀ f ∈ [Field.ofText "source" u.normalSource, Field.ofDigest "trace" t.digest],
        f.IsRegular ["trace"] := by
    intro u t hu f hf
    rcases List.mem_pair.1 hf with rfl | rfl
    · exact Field.isRegular_of_short (by decide) (by decide) hu.source
    · exact Field.isRegular_ofDigest (by decide) (by decide) _
  have hfields := Digest.ofFields_injective hash (hregular u s hu) (hregular v t hv)
    (Strategy.path.inj h)
  obtain ⟨hsource, hrest⟩ := List.cons.inj hfields
  exact ⟨Field.ofText_injective hsource,
    Trace.digest_injective hash hs ht (Field.ofDigest_injective (List.cons.inj hrest).1)⟩

/-- Units of one normal source share their keys. -/
theorem executionPath_congr {u v : WorkUnit} (h : u.normalSource = v.normalSource) (t : Trace) :
    executionPath u t = executionPath v t := by
  unfold executionPath
  rw [h]

/-- The content of a unit is a digest of the domain of contents. -/
theorem purity_pure {env : Environment} {pinned : Bool} {u : WorkUnit} {d : Digest}
    (h : purity env pinned u = .ok (.pure d)) : ∃ fields, d = .ofFields "content" fields := by
  unfold purity Environment.maxOpen purityAt at h
  simp only [List.contains_nil, Bool.false_eq_true, if_false, List.lookup_nil] at h
  split at h
  · cases h
  split at h
  · cases h
  · cases h
  · exact ⟨_, (Purity.pure.inj (Except.ok.inj h)).symm⟩

end Keys

namespace Cache

/-! ## §2. Runs. -/

/-- One call of a unit: what its names stand for at the time, and what running it would give. -/
structure Query where
  scope : ScopeId
  unit : WorkUnit
  env : Environment
  compute : Except Error (Json × Trace)

/-- Queries whose texts a length of eight bytes can count. -/
structure Query.IsRegular (q : Query) : Prop where
  unit : q.unit.IsRegular
  trace : ∀ value t, q.compute = .ok (value, t) → t.IsRegular

/-- A run of an impure unit, with what it did and gave. -/
structure Run where
  scope : ScopeId
  unit : WorkUnit
  trace : Trace
  value : Json

variable [HashFunction]

/-- The key under which the result of a run is kept. -/
def Run.key (r : Run) : Strategy := executionPath r.unit r.trace

/-- Calls a unit. -/
def ask (c : Cache) (q : Query) : Served × Cache := c.call q.scope q.unit q.env q.compute

/-- The cache after calls in turn. -/
def asks : Cache → List Query → Cache
  | c, [] => c
  | c, q :: rest => asks (c.ask q).2 rest

/-- The run that a call makes, if its unit is impure, is not served, and does not fail. -/
def run? (c : Cache) (q : Query) : Option Run :=
  match purity q.env c.pinned q.unit, q.compute with
  | .ok (.impure _), .ok (value, t) =>
    if (c.ask q).1.computed then some ⟨q.scope, q.unit, t, value⟩ else none
  | _, _ => none

/-- The runs that calls in turn make, the latest last. -/
def runs : Cache → List Query → List Run
  | _, [] => []
  | c, q :: rest => (c.run? q).toList ++ runs (c.ask q).2 rest

/-- The latest run of a scope that has a given key. -/
def latest? (rs : List Run) (scope : ScopeId) (key : Strategy) : Option Run :=
  rs.reverse.find? fun r => r.scope = scope ∧ r.key = key

theorem latest?_concat (rs : List Run) (r : Run) (scope : ScopeId) (key : Strategy) :
    latest? (rs ++ [r]) scope key =
      if r.scope = scope ∧ r.key = key then some r else latest? rs scope key := by
  unfold latest?
  rw [List.reverse_append, List.reverse_singleton, List.singleton_append, List.find?_cons]
  split <;> simp_all

/-- After the latest run there is none of its scope and key. -/
theorem latest?_eq_some {rs : List Run} {scope : ScopeId} {key : Strategy} {r : Run}
    (h : latest? rs scope key = some r) : r.scope = scope ∧ r.key = key ∧
      ∃ earlier later, rs = earlier ++ r :: later ∧
        ∀ r' ∈ later, r'.scope = scope → r'.key ≠ key := by
  obtain ⟨hr, before, after, hsplit, hbefore⟩ := List.find?_eq_some_iff_append.1 h
  have hr := of_decide_eq_true hr
  refine ⟨hr.1, hr.2, after.reverse, before.reverse, ?_, fun r' hr' hscope hkey => ?_⟩
  · rw [← List.reverse_reverse rs, hsplit]
    simp
  · have hno := hbefore r' (List.mem_reverse.1 hr')
    simp [hscope, hkey] at hno

theorem latest?_of_mem {rs : List Run} {r : Run} (h : r ∈ rs) :
    ∃ r', latest? rs r.scope r.key = some r' := by
  refine Option.isSome_iff_exists.1 (List.find?_isSome.2 ⟨r, List.mem_reverse.2 h, ?_⟩)
  simp

/-! ## §3. One call. -/

variable {c : Cache} {scope : ScopeId} {u : WorkUnit} {env : Environment}

/-- Trying traces only counts, and what is served was found under the key of one of them that
holds. -/
theorem servePath_spec (env : Environment) (scope : ScopeId) (u : WorkUnit) (ts : List Trace)
    (c : Cache) : (∃ stats, (servePath env scope u ts c).2.2 = { c with stats }) ∧
      ∀ hit, (servePath env scope u ts c).1 = some hit → ∃ t ∈ ts,
        t.all env.stillHolds = true ∧ c.hit? scope (executionPath u t) = some hit := by
  -- on the traces, over all caches: each look-up counts before the next trace is tried
  induction ts generalizing c with
  | nil => exact ⟨⟨c.stats, rfl⟩, fun hit h => by cases h⟩
  | cons t earlier ih =>
    unfold servePath
    split
    case isFalse =>
      obtain ⟨hstats, hserved⟩ := ih c
      refine ⟨hstats, fun hit h => ?_⟩
      obtain ⟨t', ht', h⟩ := hserved hit h
      exact ⟨t', List.mem_cons_of_mem _ ht', h⟩
    case isTrue hholds =>
      obtain ⟨stats, heq⟩ := c.lookupOrMiss_eq scope (executionPath u t)
      rw [heq]
      cases hfound : c.hit? scope (executionPath u t) with
      | some found =>
        refine ⟨⟨stats, rfl⟩, fun hit h => ⟨t, List.mem_cons_self .., hholds, ?_⟩⟩
        obtain rfl := Option.some.inj h
        exact hfound
      | none =>
        obtain ⟨⟨stats', hstats⟩, hserved⟩ := ih { c with stats }
        refine ⟨⟨stats', hstats⟩, fun hit h => ?_⟩
        obtain ⟨t', ht', h⟩ := hserved hit h
        exact ⟨t', List.mem_cons_of_mem _ ht', h⟩

/-- A call of an impure unit serves what stands under the key of a trace of its own that holds, or
it runs the unit and keeps the result and the trace. -/
theorem callByPath_cases (c : Cache) (scope : ScopeId) (u : WorkUnit) (env : Environment)
    (compute : Except Error (Json × Trace)) : ∃ stats,
      (∃ hit, c.callByPath scope u env compute = (⟨.ok hit.result, false⟩, { c with stats }) ∧
        ∃ t ∈ c.paths? scope u.identity, t.all env.stillHolds = true ∧
          c.hit? scope (executionPath u t) = some hit) ∨
      (∃ e, compute = .error e ∧
        c.callByPath scope u env compute = (⟨.error e, true⟩, { c with stats })) ∨
      ∃ value t, compute = .ok (value, t) ∧ c.callByPath scope u env compute =
        (⟨.ok value, true⟩, ({ c with stats }.store scope (executionPath u t) value
          (Trace.digest t)).recordPath scope u.identity t) := by
  obtain ⟨⟨stats, hstats⟩, hserved⟩ :=
    servePath_spec env scope u (c.paths? scope u.identity).reverse c
  unfold callByPath
  split
  case h_1 hit _ _ heq =>
    rw [heq] at hstats hserved
    obtain ⟨t, ht, h⟩ := hserved hit rfl
    refine ⟨stats, .inl ⟨hit, ?_, t, List.mem_reverse.1 ht, h⟩⟩
    rw [← hstats]
  case h_2 lookedUp c' heq =>
    rw [heq] at hstats
    -- where no trace held, the miss is counted only now
    obtain ⟨stats', hcounted⟩ :
        ∃ stats', (if lookedUp then c' else c'.countMiss) = { c with stats := stats' } := by
      obtain rfl : c' = { c with stats } := hstats
      cases lookedUp <;> exact ⟨_, rfl⟩
    rw [hcounted]
    cases compute with
    | error e => exact ⟨stats', .inr (.inl ⟨e, rfl, rfl⟩)⟩
    | ok ran => exact ⟨stats', .inr (.inr ⟨ran.1, ran.2, rfl, rfl⟩)⟩

/-- A call makes a run, which is stored and recorded.  Or it makes none; then it does no more than
count, or it keeps what it computed under the content of its unit. -/
theorem ask_cases (c : Cache) (q : Query) : ∃ stats,
    (∃ r, c.run? q = some r ∧ r.scope = q.scope ∧ r.unit = q.unit ∧
      q.compute = .ok (r.value, r.trace) ∧ (c.ask q).2 =
        ({ c with stats }.store r.scope r.key r.value (Trace.digest r.trace)).recordPath r.scope
          r.unit.identity r.trace) ∨
    c.run? q = none ∧ ((c.ask q).2 = { c with stats } ∨ ∃ fields, (c.ask q).2 =
      keep { c with stats } q.scope (.content (.ofFields "content" fields))
        (q.compute.map (·.1))) := by
  unfold run?
  cases hpurity : purity q.env c.pinned q.unit with
  | error e =>
    have hask : (c.ask q).2 = c := by
      unfold ask call
      rw [hpurity]
    exact ⟨c.stats, .inr ⟨rfl, .inl hask⟩⟩
  | ok p =>
    cases p with
    | pure d =>
      have hask : c.ask q = c.getOrCompute q.scope (.content d) (q.compute.map (·.1)) := by
        unfold ask call
        rw [hpurity]
      obtain ⟨fields, rfl⟩ := purity_pure hpurity
      obtain ⟨stats, heq⟩ := c.getOrCompute_spec q.scope (.content (.ofFields "content" fields))
        (q.compute.map (·.1))
      rw [hask, heq]
      cases c.hit? q.scope (.content (.ofFields "content" fields)) with
      | some e => exact ⟨stats, .inr ⟨rfl, .inl rfl⟩⟩
      | none => exact ⟨stats, .inr ⟨rfl, .inr ⟨fields, rfl⟩⟩⟩
    | impure reason =>
      have hask : c.ask q = c.callByPath q.scope q.unit q.env q.compute := by
        unfold ask call
        rw [hpurity]
      obtain ⟨stats, ⟨hit, heq, -⟩ | ⟨e, hcompute, heq⟩ | ⟨value, t, hcompute, heq⟩⟩ :=
        c.callByPath_cases q.scope q.unit q.env q.compute
      · rw [hask, heq]
        refine ⟨stats, .inr ⟨?_, .inl rfl⟩⟩
        cases q.compute <;> rfl
      · rw [hask, heq, hcompute]
        exact ⟨stats, .inr ⟨rfl, .inl rfl⟩⟩
      · rw [hask, heq, hcompute]
        exact ⟨stats, .inl ⟨⟨q.scope, q.unit, t, value⟩, rfl, rfl, rfl, rfl, rfl⟩⟩

/-- Calls do not turn pinning on or off. -/
theorem pinned_ask (c : Cache) (q : Query) : (c.ask q).2.pinned = c.pinned := by
  obtain ⟨stats, ⟨r, -, -, -, -, hafter⟩ | ⟨-, hafter | ⟨fields, hafter⟩⟩⟩ := c.ask_cases q
  · rw [hafter]
    rfl
  · rw [hafter]
  · rw [hafter]
    cases q.compute <;> rfl

theorem pinned_asks (c : Cache) (qs : List Query) : (c.asks qs).pinned = c.pinned := by
  induction qs generalizing c with
  | nil => rfl
  | cons q rest ih => exact (ih (c.ask q).2).trans (c.pinned_ask q)

/-! ## §4. Both tables hold what the runs gave. -/

/-- The tables go back to these runs. -/
structure Recorded (rs : List Run) (c : Cache) : Prop where
  /-- A trace of a unit is that of a run of a unit with its identity. -/
  traced : ∀ {scope d t}, t ∈ c.paths? scope d →
    ∃ r ∈ rs, r.scope = scope ∧ r.unit.identity = d ∧ r.trace = t
  /-- Under a key stands what the latest run with that key gave. -/
  kept : ∀ {scope key r}, latest? rs scope key = some r →
    ∃ e, c.hit? scope key = some e ∧ e.result = r.value

namespace Recorded

variable {rs : List Run} {q : Query}

/-- Before the first run nothing is said of the entries. -/
theorem empty (h : ∀ scope d, c.paths? scope d = []) : Recorded [] c where
  traced ht := by
    rw [h] at ht
    cases ht
  kept h := by cases h

theorem count (h : Recorded rs c) (stats : CacheStats) : Recorded rs { c with stats } :=
  ⟨h.traced, h.kept⟩

/-- Entries under contents do not get in the way of runs. -/
theorem keep_content (hash : HashFunction.CollisionFree) (h : Recorded rs c) (scope : ScopeId)
    (fields : List Field) (compute : Except Error Json) :
    Recorded rs (c.keep scope (.content (.ofFields "content" fields)) compute) := by
  cases compute with
  | error e => exact h
  | ok value =>
    refine ⟨h.traced, fun {scope' key r} hr => ?_⟩
    have hkey := (latest?_eq_some hr).2.1
    rw [keep, hit?_store_of_ne]
    · exact h.kept hr
    · rintro ⟨-, hdigest⟩
      rw [← hkey] at hdigest
      exact Digest.ofFields_ne hash (by decide) (by decide) (by decide) _ _ hdigest

/-- A run takes the place of the latest one with its key. -/
theorem record (h : Recorded rs c) (r : Run) (effects : Digest) :
    Recorded (rs ++ [r]) ((c.store r.scope r.key r.value effects).recordPath r.scope
      r.unit.identity r.trace) where
  traced := by
    intro scope d t ht
    rcases mem_paths?_recordPath ht with ⟨rfl, rfl, rfl⟩ | ht
    · exact ⟨r, List.mem_append_right _ (List.mem_singleton_self r), rfl, rfl, rfl⟩
    · obtain ⟨r₀, hr₀, hrun⟩ := h.traced ht
      exact ⟨r₀, List.mem_append_left _ hr₀, hrun⟩
  kept := by
    intro scope key r' hr'
    rw [latest?_concat] at hr'
    change ∃ e, (c.store r.scope r.key r.value effects).hit? scope key = some e ∧ _
    by_cases hnew : r.scope = scope ∧ r.key = key
    · rw [if_pos hnew] at hr'
      obtain rfl := Option.some.inj hr'
      obtain ⟨rfl, rfl⟩ := hnew
      exact ⟨_, hit?_store_self .., rfl⟩
    · rw [if_neg hnew] at hr'
      rw [hit?_store_of_ne]
      · exact h.kept hr'
      · rintro ⟨hscope, hdigest⟩
        have hkey := (latest?_eq_some hr').2.1
        refine hnew ⟨hscope.symm, ?_⟩
        -- keys of runs are of one kind, so their digests tell them apart
        rw [← hkey] at hdigest ⊢
        exact congrArg Strategy.path hdigest.symm

/-- **Every call keeps the tables tied to the runs.** -/
theorem ask (hash : HashFunction.CollisionFree) (h : Recorded rs c) (q : Query) :
    Recorded (rs ++ (c.run? q).toList) (c.ask q).2 := by
  obtain ⟨stats, ⟨r, hrun, -, -, -, hafter⟩ | ⟨hrun, hafter | ⟨fields, hafter⟩⟩⟩ := c.ask_cases q
  · rw [hrun, hafter]
    exact (h.count stats).record r (Trace.digest r.trace)
  · rw [hrun, hafter, Option.toList_none, List.append_nil]
    exact h.count stats
  · rw [hrun, hafter, Option.toList_none, List.append_nil]
    exact (h.count stats).keep_content hash q.scope fields (q.compute.map (·.1))

/-- **So do calls in turn.** -/
theorem asks (hash : HashFunction.CollisionFree) (h : Recorded rs c) (qs : List Query) :
    Recorded (rs ++ c.runs qs) (c.asks qs) := by
  -- on the calls; the runs so far and the cache grow together
  induction qs generalizing c rs with
  | nil => simpa [runs, Cache.asks] using h
  | cons q rest ih =>
    have hrest := ih (h.ask hash q)
    rwa [List.append_assoc] at hrest

end Recorded

/-- The texts of the runs are those of the calls. -/
theorem run?_isRegular {q : Query} (hq : q.IsRegular) {r : Run} (hr : c.run? q = some r) :
    r.unit.IsRegular ∧ r.trace.IsRegular := by
  unfold run? at hr
  split at hr
  case h_1 value t _ hcompute =>
    split at hr
    · obtain rfl := Option.some.inj hr
      exact ⟨hq.unit, hq.trace value t hcompute⟩
    · cases hr
  case h_2 => cases hr

theorem runs_isRegular {qs : List Query} (hqs : ∀ q ∈ qs, q.IsRegular) :
    ∀ r ∈ c.runs qs, r.unit.IsRegular ∧ r.trace.IsRegular := by
  induction qs generalizing c with
  | nil => intro r hr; cases hr
  | cons q rest ih =>
    intro r hr
    rcases List.mem_append.1 hr with hr | hr
    · exact run?_isRegular (hqs q (List.mem_cons_self ..)) (Option.mem_toList.1 hr)
    · exact ih (fun q hq => hqs q (List.mem_cons_of_mem _ hq)) r hr

/-- **An impure unit is served the result of the latest run with its source and a trace that holds
now**, and a unit of its identity had a run with that trace no later. -/
theorem served_latest (hash : HashFunction.CollisionFree)
    (hnew : ∀ scope d, c.paths? scope d = []) {qs : List Query} (hqs : ∀ q ∈ qs, q.IsRegular)
    {q : Query} (hq : q.IsRegular) {reason : String}
    (himpure : purity q.env c.pinned q.unit = .ok (.impure reason))
    (hserved : ((c.asks qs).ask q).1.computed = false) :
    ∃ earlier r later, c.runs qs = earlier ++ r :: later ∧
      ((c.asks qs).ask q).1.result = .ok r.value ∧
      r.scope = q.scope ∧ r.unit.normalSource = q.unit.normalSource ∧
      r.trace.all q.env.stillHolds = true ∧
      (∀ r' ∈ later, r'.scope = q.scope → r'.unit.normalSource = q.unit.normalSource →
        r'.trace ≠ r.trace) ∧
      ∃ r₀ ∈ earlier ++ [r], r₀.scope = q.scope ∧ r₀.unit.identity = q.unit.identity ∧
        r₀.trace = r.trace := by
  have hrecorded : Recorded (c.runs qs) (c.asks qs) := by
    simpa using (Recorded.empty hnew).asks hash qs
  have hregular := runs_isRegular (c := c) hqs
  have hask : (c.asks qs).ask q =
      (c.asks qs).callByPath q.scope q.unit q.env q.compute := by
    unfold Cache.ask call
    rw [pinned_asks, himpure]
  obtain ⟨stats, ⟨hit, heq, t, ht, hholds, hhit⟩ | ⟨e, -, heq⟩ | ⟨value, t, -, heq⟩⟩ :=
    (c.asks qs).callByPath_cases q.scope q.unit q.env q.compute
  rotate_left
  · rw [hask, heq] at hserved
    cases hserved
  · rw [hask, heq] at hserved
    cases hserved
  -- the trace is that of a run of the unit itself, and its key that of the latest such run
  obtain ⟨r₀, hr₀, hscope₀, hidentity, rfl⟩ := hrecorded.traced ht
  have hsource : r₀.unit.normalSource = q.unit.normalSource :=
    congrArg Outline.source
      (WorkUnit.outline_eq_of_identity hash (hregular r₀ hr₀).1 hq.unit hidentity)
  have hkey₀ : r₀.key = executionPath q.unit r₀.trace := executionPath_congr hsource _
  obtain ⟨r, hr⟩ := latest?_of_mem hr₀
  rw [hscope₀, hkey₀] at hr
  obtain ⟨hscope, hkey, earlier, later, hsplit, hlater⟩ := latest?_eq_some hr
  have hmem : r ∈ c.runs qs := hsplit ▸ List.mem_append_right _ (List.mem_cons_self ..)
  -- that run need not be one of the unit, but its key tells the source and the trace
  obtain ⟨hsource', htrace⟩ := executionPath_injective hash (hregular r hmem).1 hq.unit
    (hregular r hmem).2 (hregular r₀ hr₀).2 hkey
  have hnone : ∀ r' ∈ later, r'.scope = q.scope →
      r'.unit.normalSource = q.unit.normalSource → r'.trace ≠ r.trace := by
    intro r' hr' hscope' hsource' htrace'
    refine hlater r' hr' hscope' ?_
    rw [Run.key, htrace', htrace]
    exact executionPath_congr hsource' _
  obtain ⟨e, he, hvalue⟩ := hrecorded.kept hr
  obtain rfl : e = hit := Option.some.inj (he.symm.trans hhit)
  refine ⟨earlier, r, later, hsplit, ?_, hscope, hsource', htrace ▸ hholds, hnone, r₀, ?_, hscope₀,
    hidentity, htrace.symm⟩
  · rw [hask, heq, hvalue]
  · rw [hsplit, List.append_cons] at hr₀
    exact (List.mem_append.1 hr₀).resolve_right fun hlate =>
      hnone r₀ hlate hscope₀ hsource htrace.symm

/-- A report from a data base, which uses a module at some version. -/
def report (version : String) : WorkUnit where
  name := "report"
  source := "total(db)"
  freeVars := .ofList ["db"]
  modules := [{ name := "tables", localName := some "t", version := some version }]

/-- The data base is reached by a driver at some version. -/
def connected (driver : String) : Environment where
  bindings := .ofList [("db", .impure "a connection")]
  stillHolds op := op = .importModule "driver" (some driver)

/-- A call of the report, and the total that it would give. -/
def reporting (version driver : String) (total : Int) : Query :=
  ⟨⟨"reports"⟩, report version, connected driver,
    .ok (.int total, [.importModule "driver" (some driver)])⟩

omit [HashFunction] in
theorem reporting_isRegular {version driver : String} {total : Int}
    (hmodules : ∀ m ∈ (report version).modules, IsShort m.name ∧ IsShort m.toJson.text)
    (htrace : Trace.IsRegular [.importModule "driver" (some driver)]) :
    (reporting version driver total).IsRegular := by
  have hsource : IsShort (normalSource "total(db)") := by decide
  have hnames : ∀ name ∈ (OrderedSet.ofList ["db"]).toList, IsShort name := by decide
  refine ⟨⟨hsource, hnames, hmodules⟩, ?_⟩
  rintro value t ⟨rfl, rfl⟩
  exact htrace

/-- Before the first call, when modules count with their versions. -/
def pinning : Cache := { pinned := true }

set_option maxRecDepth 20000 in
omit [HashFunction] in
/-- Back with the first driver the report is served the total that it gave then. -/
theorem report_servedAgain :
    let _ := HashFunction.spelled
    let qs := [reporting "1" "a" 10, reporting "1" "b" 20]
    let q := reporting "1" "a" 30
    ∃ earlier r later, pinning.runs qs = earlier ++ r :: later ∧
      ((pinning.asks qs).ask q).1.result = .ok r.value ∧ r.value = .int 10 := by
  intro _ qs q
  have hqs : ∀ q ∈ qs, q.IsRegular := by
    intro q hq
    rcases List.mem_pair.1 hq with rfl | rfl <;>
      exact reporting_isRegular (by decide) (by decide)
  have hq : q.IsRegular := reporting_isRegular (by decide) (by decide)
  have himpure : purity q.env pinning.pinned q.unit =
      .ok (.impure "'db' is impure: a connection") := by cbv
  have hcall : (fun s : Served => (s.computed, s.result.toOption)) ((pinning.asks qs).ask q).1 =
      (false, some (.int 10)) := by cbv
  obtain ⟨hserved, hten⟩ := Prod.mk.inj hcall
  have hnew : ∀ scope d, pinning.paths? scope d = [] := fun _ _ => rfl
  -- from here on the calls need not be carried out any more
  clear_value qs q
  obtain ⟨earlier, r, later, hsplit, hresult, -⟩ :=
    served_latest HashFunction.spelled_collisionFree hnew hqs hq himpure hserved
  refine ⟨earlier, r, later, hsplit, hresult, ?_⟩
  simpa [hresult, Except.toOption] using hten

set_option maxRecDepth 20000 in
omit [HashFunction] in
/-- With a module at another version the report runs in between, and its total is served to the
first one. -/
theorem report_servedAnothers :
    let _ := HashFunction.spelled
    let qs := [reporting "1" "a" 10, reporting "2" "a" 20]
    let q := reporting "1" "a" 30
    HashFunction.CollisionFree ∧ (∀ p ∈ qs, p.IsRegular) ∧ q.IsRegular ∧
      purity q.env pinning.pinned q.unit = .ok (.impure "'db' is impure: a connection") ∧
      ((pinning.asks qs).ask q).1.computed = false ∧
      ((pinning.asks qs).ask q).1.result.toOption = some (.int 20) ∧
      ∀ r ∈ pinning.runs qs, r.unit.identity = q.unit.identity → r.value ≠ .int 20 := by
  intro _ qs q
  have hqs : ∀ p ∈ qs, p.IsRegular := by
    intro p hp
    rcases List.mem_pair.1 hp with rfl | rfl <;>
      exact reporting_isRegular (by decide) (by decide)
  have hown : ((pinning.runs qs).filter fun r => r.unit.identity = q.unit.identity).map
      (·.value) = [.int 10] := by cbv
  have hcall : (fun s : Served => (s.computed, s.result.toOption)) ((pinning.asks qs).ask q).1 =
      (false, some (.int 20)) := by cbv
  obtain ⟨hserved, htwenty⟩ := Prod.mk.inj hcall
  refine ⟨HashFunction.spelled_collisionFree, hqs,
    reporting_isRegular (by decide) (by decide), by cbv, hserved, htwenty, ?_⟩
  intro r hr hidentity hvalue
  have hmem : r.value ∈ ((pinning.runs qs).filter fun r =>
      r.unit.identity = q.unit.identity).map (·.value) :=
    List.mem_map_of_mem (List.mem_filter.2 ⟨hr, decide_eq_true hidentity⟩)
  rw [hown, hvalue] at hmem
  cases List.mem_singleton.1 hmem

end Cache

end Notebook
