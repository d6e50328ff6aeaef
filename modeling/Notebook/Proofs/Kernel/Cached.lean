/-
  Notebook.Proofs.Kernel.Cached — executors that compute, and results that are served again.

  An executor may do no more than compute an output from the normal source of a cell, the bindings
  that it reads and the names that it misses.  The content digest of a cell covers its public names
  only.  Where no private name that the cell reads from elsewhere is bound, the bindings and the
  missing names can still be read off what the digest covers.  So a result that was kept is served
  only where it would be computed again, and running a cell comes to the same whether or not there
  is a cache.

  `Calm` is what holds of a kernel all of whose values were computed: nothing is queued, the names
  are bound to plain values, and every result that was kept is one of the computation.  In a `Plain`
  kernel no cell has private names at all.

  Main results:
    * `readings_gives` — what is read determines what an executor is asked,
    * `identityOf?_calm` — a cell is known by its content digest, if results are kept at all,
    * `Calm.runLive` — a cell that is run gets what is computed for it, served or executed.
-/
import Notebook.Proofs.Cache.Store
import Notebook.Proofs.Identity.Content
import Notebook.Proofs.Kernel.Reachable
import Notebook.Proofs.Kernel.Twin
import Notebook.Proofs.Wire.Outputs

namespace Notebook

/-! ## §1. Executors that compute. -/

/-- What code computes from its normal source, the bindings that it reads and the names that are
missing: an output, or the text of a failure. -/
abbrev Computation := String → Table String Binding → List String → Except String CellOutput

/-- A computation that gives plain values where it is given plain values. -/
def Computation.IsPlain (f : Computation) : Prop :=
  ∀ source inputs missing output,
    (∀ name b, inputs.get? name = some b → b.isStandard = true) →
    f source inputs missing = .ok output → output.isStandard = true

/-- The executor computes what `f` says, and uses nothing else. -/
def Executor.Computes {κ σ : Type} (x : Executor κ σ) (f : Computation) : Prop :=
  ∀ r, x.execute r = .done (f (normalSource r.code) r.inputs r.missing)

/-- A cell with texts that a length can count. -/
structure CellSpec.HasShortTexts (spec : CellSpec) : Prop where
  source : IsShort (normalSource spec.code)
  refs : ∀ name, spec.refs.has name = true → IsShort name

/-- Whether the texts are short can be checked name by name. -/
theorem CellSpec.hasShortTexts_iff {spec : CellSpec} : spec.HasShortTexts ↔
    IsShort (normalSource spec.code) ∧ ∀ name ∈ spec.refs.toList, IsShort name := by
  simp only [OrderedSet.mem_toList]
  exact ⟨fun h => ⟨h.source, h.refs⟩, fun ⟨hsource, hrefs⟩ => ⟨hsource, hrefs⟩⟩

instance (spec : CellSpec) : Decidable spec.HasShortTexts :=
  decidable_of_iff _ CellSpec.hasShortTexts_iff.symm

/-- A cell that takes part in nothing private, with texts that a length can count. -/
structure CellSpec.IsPlain (marker : String) (spec : CellSpec) : Prop where
  public_defs : ∀ name, spec.defs.has name = true → isPrivateName marker name = false
  public_refs : ∀ name, spec.refs.has name = true → isPrivateName marker name = false
  short_source : IsShort (normalSource spec.code)
  short_refs : ∀ name, spec.refs.has name = true → IsShort name

theorem CellSpec.IsPlain.hasShortTexts {marker : String} {spec : CellSpec}
    (h : spec.IsPlain marker) : spec.HasShortTexts := ⟨h.short_source, h.short_refs⟩

/-- Whether a cell is plain can be checked name by name. -/
theorem CellSpec.isPlain_iff {marker : String} {spec : CellSpec} : spec.IsPlain marker ↔
    (∀ name ∈ spec.defs.toList, isPrivateName marker name = false) ∧
      (∀ name ∈ spec.refs.toList, isPrivateName marker name = false ∧ IsShort name) ∧
        IsShort (normalSource spec.code) := by
  simp only [OrderedSet.mem_toList]
  constructor
  · intro h
    exact ⟨h.public_defs, fun name href => ⟨h.public_refs name href, h.short_refs name href⟩,
      h.short_source⟩
  · rintro ⟨hdefs, hrefs, hsource⟩
    exact ⟨hdefs, fun name href => (hrefs name href).1, hsource,
      fun name href => (hrefs name href).2⟩

instance (marker : String) (spec : CellSpec) : Decidable (spec.IsPlain marker) :=
  decidable_of_iff _ CellSpec.isPlain_iff.symm

/-! ## §2. What a cell reads. -/

/-- What an executor is given for what is read. -/
structure Readings.Gives (r : Readings) (inputs : Table String Binding) (missing : List String) :
    Prop where
  inputs : ∀ name, inputs.get? name = (r.lookup name).bind fun v => v.map Binding.value
  missing : missing = (r.filter fun e => e.2.isNone).map (·.1)

/-- What is read determines what an executor is given. -/
theorem Readings.Gives.unique {r : Readings} {inputs inputs' : Table String Binding}
    {missing missing' : List String} (h : r.Gives inputs missing) (h' : r.Gives inputs' missing') :
    inputs = inputs' ∧ missing = missing' :=
  ⟨Table.ext_get? fun name => (h.inputs name).trans (h'.inputs name).symm,
    h.missing.trans h'.missing.symm⟩

theorem lookup_tabulated {α β : Type} [BEq α] [LawfulBEq α] (l : List α) (g : α → β) (a : α) :
    (l.map fun b => (b, g b)).lookup a = if l.contains a then some (g a) else none := by
  induction l with
  | nil => rfl
  | cons b rest ih =>
    rw [List.map_cons, List.lookup_cons, ih, List.contains_cons]
    cases h : a == b with
    | true => simp [eq_of_beq h]
    | false => rfl

namespace Kernel

variable {κ σ : Type} {k k' : Kernel κ σ} {c : Cell} {f : Computation} {m : String}
  {S : CellSpec → Prop}

theorem mem_foreignRefs {name : String} :
    name ∈ foreignRefs c ↔ c.refs.has name = true ∧ c.defs.has name = false := by
  simp [foreignRefs, OrderedSet.mem_toList]

/-- The public names that a cell reads and does not define. -/
def publicRefs (k : Kernel κ σ) (c : Cell) : List String :=
  (foreignRefs c).filter fun name => !k.graph.isPrivate name

theorem mem_publicRefs {name : String} : name ∈ k.publicRefs c ↔
    c.refs.has name = true ∧ c.defs.has name = false ∧ k.graph.isPrivate name = false := by
  simp [publicRefs, mem_foreignRefs, and_assoc]

/-- The public names that a cell reads, each with its value if it is bound to one. -/
def readings (k : Kernel κ σ) (c : Cell) : Readings :=
  (k.publicRefs c).map fun name => (name, (k.names.get? name).bind Binding.value?)

/-- No private name that a cell reads from elsewhere is bound. -/
def Screened (k : Kernel κ σ) (c : Cell) : Prop :=
  ∀ name, c.refs.has name = true → c.defs.has name = false → k.graph.isPrivate name = true →
    k.names.get? name = none

/-- Names are bound to plain values only. -/
def PlainNames (k : Kernel κ σ) : Prop :=
  ∀ name b, k.names.get? name = some b → b.isStandard = true

theorem PlainNames.cases (h : k.PlainNames) (name : String) : k.names.get? name = none ∨
    ∃ v, k.names.get? name = some (.value v) ∧ v.isStandard = true := by
  cases hb : k.names.get? name with
  | none => exact .inl rfl
  | some b =>
    obtain ⟨v, rfl, hv⟩ := Binding.isStandard_iff.1 (h name b hb)
    exact .inr ⟨v, rfl, hv⟩

/-- What a screened cell reads determines what an executor is asked for it. -/
theorem readings_gives (hnames : k.PlainNames) (hscreened : k.Screened c) :
    (k.readings c).Gives (k.inputs c) (k.missing c) := by
  refine ⟨fun name => ?_, ?_⟩
  · unfold readings
    rw [get?_inputs, lookup_tabulated]
    by_cases hmem : name ∈ k.publicRefs c
    · obtain ⟨href, hdef, -⟩ := mem_publicRefs.1 hmem
      rw [List.contains_iff_mem.2 hmem, href, hdef]
      rcases hnames.cases name with h | ⟨v, h, -⟩ <;> rw [h] <;> rfl
    · rw [show (k.publicRefs c).contains name = false from
        Bool.eq_false_iff.2 fun h => hmem (List.contains_iff_mem.1 h)]
      -- what is left of the names that are read is private, and not bound
      split
      · rename_i hread
        rw [Bool.and_eq_true, Bool.not_eq_true'] at hread
        refine hscreened name hread.1 hread.2 (Bool.eq_true_of_not_eq_false fun hpublic => ?_)
        exact hmem (mem_publicRefs.2 ⟨hread.1, hread.2, hpublic⟩)
      · rfl
  · unfold missing readings publicRefs
    rw [List.filter_map, List.map_map, List.filter_filter]
    have hkeep : (foreignRefs c).filter
        (fun name => (k.names.get? name).isNone && !k.graph.isPrivate name) =
          (foreignRefs c).filter (fun name => ((fun e : String × Option Json => e.2.isNone) ∘
            fun name => (name, (k.names.get? name).bind Binding.value?)) name &&
              !k.graph.isPrivate name) := by
      refine List.filter_congr fun name _ => ?_
      rcases hnames.cases name with h | ⟨v, h, -⟩ <;> simp [h, Binding.value?]
    rw [hkeep]
    exact (List.map_id' _).symm

/-- What a cell reads does not depend on names that it defines. -/
theorem readings_congr (hprivate : ∀ name, k'.graph.isPrivate name = k.graph.isPrivate name)
    (h : ∀ name, c.defs.has name = false → k'.names.get? name = k.names.get? name) :
    k'.readings c = k.readings c := by
  have hrefs : k'.publicRefs c = k.publicRefs c := by
    unfold publicRefs
    simp only [hprivate]
  unfold readings
  rw [hrefs]
  refine List.map_congr_left fun name hname => ?_
  rw [h name (mem_publicRefs.1 hname).2.1]

/-! ## §3. Identities. -/

theorem toList_unitOf (k : Kernel κ σ) (c : Cell) :
    (k.unitOf c).freeVars.toList = k.publicRefs c := by
  have hset : k.publicRefs c = OrderedSet.toList
      ((c.refs.diff c.defs).filter fun name _ => !k.graph.isPrivate name) := by
    unfold publicRefs foreignRefs OrderedSet.diff OrderedSet.toList Table.keys Table.filter
    rw [List.filter_map, List.filter_map]
    rfl
  show (OrderedSet.ofList (k.publicRefs c)).toList = k.publicRefs c
  rw [hset, OrderedSet.ofList_toList]

variable [HashFunction]

/-- A cell that reads plain values is known by its content digest, if results are kept at all. -/
theorem identityOf?_calm (hnames : k.PlainNames) (c : Cell) :
    k.identityOf? c = if k.config.cellCache then
      some (.content (contentDigest (normalSource c.code) (k.readings c))) else none := by
  unfold identityOf?
  split
  · have hget : ∀ name, (k.names.bindings.map fun _ b => resolve k.session b).get? name =
        (k.names.get? name).map (resolve k.session) := by
      intro name
      exact Table.get?_map ..
    have hreadings : (Environment.mk (k.names.bindings.map fun _ b => resolve k.session b)
        (fun _ => none) (fun _ => false)).readings (k.publicRefs c) = k.readings c := by
      refine List.map_congr_left fun name _ => ?_
      rw [hget]
      rcases hnames.cases name with h | ⟨v, h, -⟩ <;> rw [h] <;> rfl
    dsimp only
    rw [identify_plain _ _ rfl, toList_unitOf, hreadings]
    · rfl
    · intro name _
      unfold Environment.IsPlainAt
      rw [hget]
      rcases hnames.cases name with h | ⟨v, h, -⟩
      · exact .inl (by rw [h]; rfl)
      · exact .inr ⟨v, by rw [h]; rfl⟩
  · rfl

/-! ## §4. Kernels whose values were computed. -/

/-- The entry is a result of `f`, kept under what was read. -/
def IsResultOf (f : Computation) (e : CacheEntry) : Prop :=
  ∃ source readings inputs missing output, IsShort source ∧ Readings.IsPlain readings ∧
    readings.Gives inputs missing ∧ f source inputs missing = .ok output ∧
    output.isStandard = true ∧ e.strategy = .content (contentDigest source readings) ∧
    e.result = output.toJson

/-- Nothing is queued or asked for, the cells are as `S` says, the names are bound to plain values,
and what is kept are results of `f`. -/
structure Calm (f : Computation) (S : CellSpec → Prop) (k : Kernel κ σ) : Prop where
  cells : ∀ id c, k.graph.cell? id = some c → S c.spec
  names : k.PlainNames
  inbox : k.session.inbox = []
  writes : k.session.states.writes = []
  goesOn : k.session.aborted = false
  results : ∀ scope digest e, k.session.cache.entry? scope digest = some e → IsResultOf f e

/-- A calm kernel whose cells are plain. -/
structure Plain (f : Computation) (m : String) (k : Kernel κ σ) : Prop extends
    Calm f (CellSpec.IsPlain m) k where
  marker : k.graph.privateMarker = m

omit [HashFunction] in
theorem marker_congr (h : k'.graph.shape = k.graph.shape) :
    k'.graph.privateMarker = k.graph.privateMarker := by
  have : k'.graph.shape.privateMarker = k.graph.shape.privateMarker := by rw [h]
  exact this

omit [HashFunction] in
theorem cells_congr (h : k'.graph.shape = k.graph.shape)
    (hcells : ∀ id c, k.graph.cell? id = some c → S c.spec) :
    ∀ id c, k'.graph.cell? id = some c → S c.spec := by
  intro id c hc
  obtain ⟨d, hd, hshape⟩ := Graph.cell?_congr h hc
  rw [← Cell.spec_of_shape hshape]
  exact hcells id d hd

namespace Calm

/-- The cells, the names and what the session has to say are all that can go wrong. -/
theorem after (hk : Calm f S k) (hcells : ∀ id c, k'.graph.cell? id = some c → S c.spec)
    (hnames : k'.PlainNames) (hsession : k.session.Unmoved k'.session) : Calm f S k' where
  cells := hcells
  names := hnames
  inbox := hsession.inbox.trans hk.inbox
  writes := hsession.writes.trans hk.writes
  goesOn := hsession.aborted.trans hk.goesOn
  results := fun scope digest e he => hk.results scope digest e (hsession.entries scope digest e he)

/-- While cells run, the cells stay what they are. -/
theorem moved (hk : Calm f S k) (h : Undisturbed k k') (hnames : k'.PlainNames)
    (hsession : k.session.Unmoved k'.session) : Calm f S k' :=
  hk.after (cells_congr h.shape hk.cells) hnames hsession

/-- Other results may be kept, as long as they are results of the computation. -/
theorem withCache (hk : Calm f S k) {cache : Cache}
    (h : ∀ scope digest e, cache.entry? scope digest = some e → IsResultOf f e) :
    Calm f S { k with session := { k.session with cache } } :=
  ⟨hk.cells, hk.names, hk.inbox, hk.writes, hk.goesOn, h⟩

end Calm

/-- A plain kernel that cells have run in is plain, if it is calm. -/
theorem Plain.of_calm (hk : Plain f m k) (h : Undisturbed k k')
    (hcalm : Calm f (CellSpec.IsPlain m) k') : Plain f m k' :=
  ⟨hcalm, (marker_congr h.shape).trans hk.marker⟩

theorem Plain.moved (hk : Plain f m k) (h : Undisturbed k k') (hnames : k'.PlainNames)
    (hsession : k.session.Unmoved k'.session) : Plain f m k' :=
  hk.of_calm h (hk.toCalm.moved h hnames hsession)

omit [HashFunction] in
theorem Plain.public_refs {f : Computation} [HashFunction] (hk : Plain f m k)
    (hc : k.graph.cell? c.id = some c) {name : String} (h : c.refs.has name = true) :
    k.graph.isPrivate name = false := by
  unfold Graph.isPrivate
  rw [hk.marker]
  exact (hk.cells _ c hc).public_refs name h

/-- A cell without private names is screened. -/
theorem Plain.screened (hk : Plain f m k) (hc : k.graph.cell? c.id = some c) : k.Screened c := by
  intro name href _ hprivate
  rw [hk.public_refs hc href] at hprivate
  cases hprivate

omit [HashFunction] in
/-- Outputs that are plain values leave plain names. -/
theorem Settled.plainNames {now : CellStatus} {error : Option CellError}
    {outputs : Table String Binding} (h : Settled k k' c now error outputs) (hk : k.PlainNames)
    (houtputs : ∀ name b, outputs.get? name = some b → b.isStandard = true) : k'.PlainNames := by
  intro name b hb
  rw [h.names] at hb
  split at hb
  · exact houtputs name b hb
  · exact hk name b hb

/-! ## §5. What is computed for a cell. -/

/-- A cell has got what `f` computes from what it read. -/
def Got (f : Computation) (k k' : Kernel κ σ) (c : Cell) : Prop :=
  match f (normalSource c.code) (k.inputs c) (k.missing c) with
  | .ok o => Settled k k' c .idle none o.bindings
  | .error text => Settled k k' c .error (some (.exception text)) .empty

/-- The kernel after a cell that got what `f` computes from what it reads. -/
def computed (f : Computation) (k : Kernel κ σ) (c : Cell) : Kernel κ σ :=
  match f (normalSource c.code) (k.inputs c) (k.missing c) with
  | .ok o => ((k.begun c).bindOutputs c o).succeed c o false
  | .error text => (k.begun c).failCell c.id .error (.exception text)

omit [HashFunction] in
theorem computed_got (f : Computation) (hc : k.graph.cell? c.id = some c) :
    Got f k (k.computed f c) c := by
  unfold Got computed
  cases f (normalSource c.code) (k.inputs c) (k.missing c) with
  | ok o => exact succeed_settled hc o false
  | error text =>
    have hbegun := begun_settled hc
    exact hbegun.again (failCell_settled (hbegun.live hc) rfl .error (.exception text))

omit [HashFunction] in
/-- The same is computed in a twin. -/
theorem Twin.computed (h : Twin k k') (f : Computation) (c : Cell) :
    Twin (k.computed f c) (k'.computed f c) := by
  unfold Kernel.computed
  rw [h.inputs, h.missing]
  split
  · exact ((h.begun c).bindOutputs c rfl).succeed c _ _ false false
  · exact (h.begun c).failCell c.id .error _

/-- What comes of running a cell: up to the session and the messages, what `f` computes for it. -/
structure Ran (f : Computation) (S : CellSpec → Prop) (k : Kernel κ σ) (c : Cell)
    (outcome : Outcome) (k' : Kernel κ σ) : Prop where
  twin : Twin (k.computed f c) k'
  config : k'.config = k.config
  calm : Calm f S k'
  failed : outcome = .failed ↔
    ∃ text, f (normalSource c.code) (k.inputs c) (k.missing c) = .error text

theorem Ran.got {outcome : Outcome} (h : Ran f S k c outcome k')
    (hc : k.graph.cell? c.id = some c) : Got f k k' c := by
  have hgot := computed_got f hc
  unfold Got at hgot ⊢
  split at hgot
  · exact hgot.twin h.twin (h.config.trans hgot.config.symm)
  · exact hgot.twin h.twin (h.config.trans hgot.config.symm)

/-! ## §6. Serving and executing. -/

omit [HashFunction] in
theorem begun_unmoved (k : Kernel κ σ) (c : Cell) : k.session.Unmoved (k.begun c).session := by
  unfold begun
  simp only [unbindAll_eq]
  exact ⟨rfl, rfl, rfl, rfl, fun _ _ _ h => h⟩

omit [HashFunction] in
/-- What a cell reads is plain. -/
theorem readings_isPlain (hnames : k.PlainNames) (hshort : c.spec.HasShortTexts) :
    (k.readings c).IsPlain := by
  intro e he
  obtain ⟨name, hname, rfl⟩ := List.mem_map.1 he
  refine ⟨hshort.refs name (mem_publicRefs.1 hname).1, fun v hv => ?_⟩
  rcases hnames.cases name with h | ⟨w, h, hw⟩
  · rw [h] at hv
    cases hv
  · rw [h] at hv
    obtain rfl := Option.some.inj hv
    exact hw

omit [HashFunction] in
/-- A running cell reads what it read before. -/
theorem readings_begun (hc : k.graph.cell? c.id = some c) :
    (k.begun c).readings c = k.readings c := by
  refine readings_congr (Graph.isPrivate_congr (begun_settled hc).shape) fun name hdef => ?_
  rw [(begun_settled hc).names, if_neg (by simp [hdef])]

theorem Calm.begun (hk : Calm f S k) (hc : k.graph.cell? c.id = some c) : Calm f S (k.begun c) :=
  hk.moved (begun_settled hc).toUndisturbed
    ((begun_settled hc).plainNames hk.names fun _ _ h => by cases h) (begun_unmoved k c)

/-- The identity of a cell that is about to run. -/
theorem identityOf?_begun (hk : Calm f S k) (hc : k.graph.cell? c.id = some c) :
    (k.begun c).identityOf? c = if k.config.cellCache then
      some (.content (contentDigest (normalSource c.code) (k.readings c))) else none := by
  rw [identityOf?_calm (hk.begun hc).names, readings_begun hc, (begun_settled hc).config]

/-- A result that is kept under the identity of a cell is what would be computed for it now. -/
theorem computed_of_kept (hash : HashFunction.CollisionFree) (hk : Calm f S k)
    (hshort : c.spec.HasShortTexts) (hscreened : k.Screened c) {e : CacheEntry}
    (he : IsResultOf f e)
    (hidentity : e.strategy = .content (contentDigest (normalSource c.code) (k.readings c)))
    {o' : CellOutput} (hread : CellOutput.ofJson? e.result = some o') :
    ∃ o, o'.bindings = o.bindings ∧ o.isStandard = true ∧
      f (normalSource c.code) (k.inputs c) (k.missing c) = .ok o := by
  obtain ⟨source, readings, inputs, missing, o, hsource, hplain, hgives, hcomputed, ho, hstrategy,
    hresult⟩ := he
  have hdigest := Strategy.content.inj (hstrategy.symm.trans hidentity)
  -- equal digests: the entry was made for the source of this cell and for what it reads now
  obtain ⟨rfl, rfl⟩ := contentDigest_injective hash hsource hshort.source hplain
    (readings_isPlain hk.names hshort) hdigest
  obtain ⟨rfl, rfl⟩ := hgives.unique (readings_gives hk.names hscreened)
  rw [hresult] at hread
  exact ⟨o, CellOutput.ofJson?_toJson ho hread, ho, hcomputed⟩

/-- A cell is served only what would be computed for it now. -/
theorem serve?_computed (hash : HashFunction.CollisionFree) (hk : Calm f S k)
    (hc : k.graph.cell? c.id = some c) (hshort : c.spec.HasShortTexts)
    (hscreened : k.Screened c) (forced : Bool) :
    ∃ (found : Option CellOutput) (cache : Cache),
      (k.begun c).serve? c forced ((k.begun c).identityOf? c) =
        (found, { k.begun c with session := { (k.begun c).session with cache } }) ∧
      cache.entries = (k.begun c).session.cache.entries ∧
      cache.pinned = (k.begun c).session.cache.pinned ∧
      ∀ o', found = some o' → ∃ o, o'.bindings = o.bindings ∧ o.isStandard = true ∧
        f (normalSource c.code) (k.inputs c) (k.missing c) = .ok o := by
  have hresults := (hk.begun hc).results
  rw [identityOf?_begun hk hc]
  unfold serve? cachedOutput
  split
  -- the cache is asked only for a cell with an identity, and only if the run is not forced
  · rename_i strategy hstrategy
    split
    · exact ⟨none, _, rfl, rfl, rfl, fun _ h => by cases h⟩
    · obtain ⟨stats, hfound⟩ :=
        (k.begun c).session.cache.lookupOrMiss_eq (.ofCell c.id) strategy
      rw [hfound]
      refine ⟨_, _, rfl, rfl, rfl, fun o' ho' => ?_⟩
      obtain ⟨e, he, ho'⟩ := Option.bind_eq_some_iff.1 ho'
      obtain ⟨hentry, hkey⟩ := Cache.hit?_eq_some.1 he
      split at hstrategy
      · rw [← Option.some.inj hstrategy] at hkey
        exact computed_of_kept hash hk hshort hscreened (hresults _ _ e hentry) hkey ho'
      · cases hstrategy
  · exact ⟨none, _, rfl, rfl, rfl, fun _ h => by cases h⟩

/-- A program that is done at once leaves a frame without effects, and touches nothing else. -/
theorem perform_done {α : Type} (k : Kernel κ σ) (id : CellId) (a : α) :
    ∃ s : Session κ σ, k.perform id (.done a) =
      (a, some ⟨id, .run, 0, [], []⟩, { k with session := s }) ∧ k.session.Unmoved s :=
  ⟨_, rfl, ⟨rfl, rfl, rfl, rfl, fun _ _ _ h => h⟩⟩

/-- What is kept of a computed result is a result of the computation. -/
theorem keepResult_results (hk : Calm f S k) (hc : k.graph.cell? c.id = some c)
    (hshort : c.spec.HasShortTexts) (hscreened : k.Screened c)
    {o : CellOutput} (ho : o.isStandard = true)
    (hcomputed : f (normalSource c.code) (k.inputs c) (k.missing c) = .ok o)
    (k₁ : Kernel κ σ) (hresults : ∀ scope digest e,
      k₁.session.cache.entry? scope digest = some e → IsResultOf f e) (frame : Option Frame) :
    ∀ scope digest e, Cache.entry?
      (k₁.keepResult c.id ((k.begun c).identityOf? c) frame o).session.cache scope digest = some e →
        IsResultOf f e := by
  intro scope digest e he
  rw [identityOf?_begun hk hc] at he
  unfold keepResult at he
  split at he
  · rename_i strategy frame hstrategy
    split at he
    -- an entry is the new one, or was there before
    · rw [Cache.entry?_store] at he
      split at he
      · obtain rfl := Option.some.inj he
        split at hstrategy
        · exact ⟨_, _, _, _, o, hshort.source, readings_isPlain hk.names hshort,
            readings_gives hk.names hscreened, hcomputed, ho, (Option.some.inj hstrategy).symm,
            rfl⟩
        · cases hstrategy
      · exact hresults _ _ e he
    · exact hresults _ _ e he
  · exact hresults _ _ e he

/-- The kernel after a cell that ran was bound its outputs. -/
theorem Calm.succeed (hk : Calm f S k) (hc : k.graph.cell? c.id = some c) {o : CellOutput}
    (ho : ∀ name b, o.bindings.get? name = some b → b.isStandard = true) {s : Session κ σ}
    (hs : k.session.Unmoved s) (cached : Bool) :
    Calm f S (({ k.begun c with session := s }.bindOutputs c o).succeed c o cached) := by
  have hsettled := succeed_settled (s := s) hc o cached
  refine hk.moved hsettled.toUndisturbed (hsettled.plainNames hk.names ho) ?_
  obtain ⟨names, elements, heq, -⟩ := bindOutputs_eq { k.begun c with session := s } c o
  rw [heq]
  exact hs.trans ⟨rfl, rfl, rfl, rfl, fun _ _ _ h => h⟩

omit [HashFunction] in
theorem inputs_isStandard (hnames : k.PlainNames) (name : String) (b : Binding)
    (h : (k.inputs c).get? name = some b) : b.isStandard = true := by
  rw [get?_inputs] at h
  split at h
  · exact hnames name b h
  · cases h

/-- A cell that is served what would be computed for it. -/
theorem Calm.served (hk : Calm f S k) (hc : k.graph.cell? c.id = some c) {o o' : CellOutput}
    (hbindings : o'.bindings = o.bindings) (ho : o.isStandard = true)
    (hcomputed : f (normalSource c.code) (k.inputs c) (k.missing c) = .ok o) {s : Session κ σ}
    (hs : k.session.Unmoved s) :
    Ran f S k c .cached
      (({ k.begun c with session := s }.bindOutputs c o').succeed c o' true) := by
  refine ⟨?_, (succeed_settled hc o' true).config, hk.succeed hc (fun name b h => ?_) hs true, ?_⟩
  · unfold computed
    rw [hcomputed]
    exact ((Twin.withSession (k.begun c) s).bindOutputs c hbindings).succeed c o o' false true
  · exact CellOutput.isStandard_iff.1 ho name b (hbindings ▸ h)
  · simp [hcomputed]

/-- A cell whose executor answers with an output. -/
theorem Calm.executed (hk : Calm f S k) (hc : k.graph.cell? c.id = some c)
    (hshort : c.spec.HasShortTexts) (hscreened : k.Screened c) {o : CellOutput}
    (ho : o.isStandard = true)
    (hcomputed : f (normalSource c.code) (k.inputs c) (k.missing c) = .ok o) {s : Session κ σ}
    (hs : k.session.Unmoved s) (frame : Option Frame) :
    Ran f S k c .executed
      ((({ k.begun c with session := s }.bindOutputs c o).keepResult c.id
        ((k.begun c).identityOf? c) frame o).succeed c o false) := by
  have hcalm := hk.succeed hc (CellOutput.isStandard_iff.1 ho) hs false
  obtain ⟨cache, hkeep⟩ := keepResult_eq ({ k.begun c with session := s }.bindOutputs c o) c.id
    ((k.begun c).identityOf? c) frame o
  -- what is kept is again a result of the computation
  have hresults := keepResult_results hk hc hshort hscreened ho hcomputed
    ({ k.begun c with session := s }.bindOutputs c o) hcalm.results frame
  rw [hkeep] at hresults ⊢
  refine ⟨?_, (succeed_settled hc o false).config, hcalm.withCache hresults, by simp [hcomputed]⟩
  unfold computed
  rw [hcomputed]
  have htwin := (Twin.withSession (k.begun c) s).bindOutputs c (o := o) rfl
  exact (htwin.trans (.withSession _ _)).succeed c o o false false

/-- A cell whose executor answers with a failure. -/
theorem Calm.failed (hk : Calm f S k) (hc : k.graph.cell? c.id = some c) {text : String}
    (hcomputed : f (normalSource c.code) (k.inputs c) (k.missing c) = .error text)
    {s : Session κ σ} (hs : k.session.Unmoved s) :
    Ran f S k c .failed
      ({ k.begun c with session := s }.failCell c.id .error (.exception text)) := by
  have hrunning := (begun_settled hc).withSession s
  have hsettled := hrunning.again
    (failCell_settled (hrunning.live hc) rfl .error (.exception text))
  obtain ⟨elements, hsession⟩ := failCell_session { k.begun c with session := s } c.id .error
    (.exception text)
  refine ⟨?_, hsettled.config, hk.moved hsettled.toUndisturbed
    (hsettled.plainNames hk.names fun _ _ h => by cases h) ?_, by simp [hcomputed]⟩
  · unfold computed
    rw [hcomputed]
    exact (Twin.withSession (k.begun c) s).failCell c.id .error (.exception text)
  · rw [hsession]
    exact hs.trans ⟨rfl, rfl, rfl, rfl, fun _ _ _ h => h⟩

/-- **A cell that is run gets what is computed for it**, whether it is served or executed. -/
theorem Calm.runLive (hash : HashFunction.CollisionFree) {x : Executor κ σ} (hx : x.Computes f)
    (hf : f.IsPlain) (hk : Calm f S k) (hc : k.graph.cell? c.id = some c)
    (hshort : c.spec.HasShortTexts) (hscreened : k.Screened c) (forced : Bool) :
    Ran f S k c (k.runLive x c forced).1 (k.runLive x c forced).2 := by
  have hasked : x.execute (k.requestOf c) =
    .done (f (normalSource c.code) (k.inputs c) (k.missing c)) := hx (k.requestOf c)
  obtain ⟨found, cache, hserve, hentries, hpinned, hfound⟩ :=
    serve?_computed hash hk hc hshort hscreened forced
  have hlooked : k.session.Unmoved { (k.begun c).session with cache } := by
    refine (begun_unmoved k c).trans ⟨rfl, rfl, rfl, hpinned, fun scope digest e he => ?_⟩
    unfold Cache.entry? at he ⊢
    exact hentries ▸ he
  rw [runLive_eq, hserve]
  cases found with
  | some o' =>
    obtain ⟨o, hbindings, ho, hcomputed⟩ := hfound o' rfl
    exact hk.served hc hbindings ho hcomputed hlooked
  | none =>
    -- the executor answers at once, and with what is computed
    dsimp only [execute]
    obtain ⟨s, hperform, hmoved⟩ := perform_done
      { k.begun c with session := { (k.begun c).session with cache } } c.id
      (f (normalSource c.code) (k.inputs c) (k.missing c))
    have hs : k.session.Unmoved s := hlooked.trans hmoved
    rw [hasked, hperform]
    cases hcomputed : f (normalSource c.code) (k.inputs c) (k.missing c) with
    | ok o =>
      have ho := hf _ _ _ o (inputs_isStandard hk.names) hcomputed
      exact hk.executed hc hshort hscreened ho hcomputed hs _
    | error text => exact hk.failed hc hcomputed hs

/-- In a plain kernel every cell gets what is computed for it. -/
theorem runLive_computes (hash : HashFunction.CollisionFree) {x : Executor κ σ}
    (hx : x.Computes f) (hf : f.IsPlain) (hk : Plain f m k) (hc : k.graph.cell? c.id = some c)
    (forced : Bool) :
    Got f k (k.runLive x c forced).2 c ∧ Plain f m (k.runLive x c forced).2 := by
  have hran := hk.toCalm.runLive hash hx hf hc (hk.cells _ c hc).hasShortTexts (hk.screened hc)
    forced
  have hgot := hran.got hc
  refine ⟨hgot, hk.of_calm ?_ hran.calm⟩
  unfold Got at hgot
  split at hgot
  · exact hgot.toUndisturbed
  · exact hgot.toUndisturbed

end Kernel

end Notebook
