/-
  Notebook.Proofs.Kernel.FromScratch — the way in which cells are fed to a kernel does not matter.

  A kernel that was fed cells without conflicts has resolved every cell that is not below a pending
  one (`Fed`).  A cell that is put in place may close a cycle or define what was missing, but only
  for cells below it, and it is pending.  Once nothing is pending all cells are resolved, and that
  determines their statuses and the names: on a cycle at once, and elsewhere from the parents of a
  cell.

  Main results:
    * `Fed.registerCells`, `Fed.ran` — registering and running keep this invariant,
    * `Fed.agree` — there is one way in which all cells can be resolved,
    * `feedings_agree` — any two ways of feeding the same cells to new kernels end alike.
-/
import Mathlib
import Notebook.Proofs.Kernel.History

namespace Notebook

open Relation

/-- The descriptions share neither the identifier nor a name. -/
def CellSpec.Apart (s t : CellSpec) : Prop :=
  s.id ≠ t.id ∧ ∀ name, s.defs.has name = true → t.defs.has name = false

instance : Std.Symm CellSpec.Apart where
  symm s t h := by
    refine ⟨h.1.symm, fun name ht => ?_⟩
    by_contra hs
    rw [h.2 name (Bool.eq_true_of_not_eq_false hs)] at ht
    cases ht

instance : DecidableRel CellSpec.Apart := fun s t =>
  decidable_of_iff (s.id ≠ t.id ∧ ∀ name ∈ s.defs.toList, t.defs.has name = false) <| by
    simp only [OrderedSet.mem_toList]
    rfl

/-- Descriptions of cells that share neither identifiers nor names. -/
abbrev Separate (specs : List CellSpec) : Prop := specs.Pairwise CellSpec.Apart

namespace Separate

variable {specs : List CellSpec} {s t : CellSpec}

theorem ids (h : Separate specs) (hs : s ∈ specs) (ht : t ∈ specs) (hid : s.id = t.id) :
    s = t := by
  by_contra hne
  exact (List.Pairwise.forall h hs ht hne).1 hid

theorem defs (h : Separate specs) (hs : s ∈ specs) (ht : t ∈ specs) {name : String}
    (hdef : s.defs.has name = true) (hdef' : t.defs.has name = true) : s = t := by
  by_contra hne
  rw [(List.Pairwise.forall h hs ht hne).2 name hdef] at hdef'
  cases hdef'

end Separate

/-- Operations that register just these cells, in any order and in any batches, and delete none. -/
structure Operation.Feed (specs : List CellSpec) (ops : List Operation) : Prop where
  registered : ∀ spec, spec ∈ specs ↔ ∃ op ∈ ops, spec ∈ op.specs
  none_deleted : ∀ cell, Operation.delete cell ∉ ops

namespace Kernel

variable [HashFunction] {κ σ : Type} {k k' : Kernel κ σ} {c d : Cell} {a b id : CellId}
  {f : Computation} {m m' : String} {x : Executor κ σ} {rounds : Nat}
  {spec : CellSpec} {specs fed : List CellSpec} {g : Graph} {dropped : List String}

/-! ## §1. Descriptions. -/

omit [HashFunction] in
/-- The description of a live cell. -/
def described? (k : Kernel κ σ) (id : CellId) : Option CellSpec := (k.graph.cell? id).map Cell.spec

omit [HashFunction] in
theorem described?_of_live (hc : k.graph.cell? id = some c) : k.described? id = some c.spec := by
  unfold described?
  rw [hc]
  rfl

omit [HashFunction] in
theorem live_of_described? {s : CellSpec} (h : k.described? id = some s) :
    ∃ c, k.graph.cell? id = some c ∧ c.spec = s := Option.map_eq_some_iff.1 h

omit [HashFunction] in
theorem described?_congr {g : Graph} (h : k.graph.shape = g.shape) (id : CellId) :
    k.described? id = (g.cell? id).map Cell.spec := by
  have hshape : ∀ g : Graph, (g.cell? id).map Cell.spec = (g.shape.cell? id).map Cell.spec := by
    intro g
    rw [Graph.cell?_shape, Option.map_map]
    rfl
  unfold described?
  rw [hshape, h, ← hshape]

omit [HashFunction] in
theorem retryParked_of_none (h : k.parked = .empty) : k.retryParked = k := by
  have hnil : k.parked.entries = [] := by rw [h]; rfl
  unfold retryParked parkedInTurn
  rw [hnil, List.map_nil, List.mergeSort_nil]
  rfl

/-- Edges can be read off the descriptions. -/
theorem edge_iff_described (hk : Plain f m k) : k.graph.Edge a b ↔
    a ≠ b ∧ ∃ s t name, k.described? a = some s ∧ k.described? b = some t ∧
      s.defs.has name = true ∧ t.refs.has name = true := by
  constructor
  · rintro ⟨c, d, hc, hd, hfeeds⟩
    obtain ⟨hne, name, hdef, href, -⟩ := Graph.feeds_iff.1 hfeeds
    rw [Graph.cell?_id hc, Graph.cell?_id hd] at hne
    exact ⟨hne, c.spec, d.spec, name, described?_of_live hc, described?_of_live hd, hdef, href⟩
  · rintro ⟨hne, s, t, name, hs, ht, hdef, href⟩
    obtain ⟨c, hc, rfl⟩ := live_of_described? hs
    obtain ⟨d, hd, rfl⟩ := live_of_described? ht
    refine ⟨c, d, hc, hd, Graph.feeds_iff.2 ⟨?_, name, hdef, href, hk.public_defs hc name hdef⟩⟩
    rw [Graph.cell?_id hc, Graph.cell?_id hd]
    exact hne

/-! ## §2. Kernels that are fed. -/

/-- The live cells are those that were fed, none waits, every cell that is not below a pending one
is resolved, and only names of live cells are bound. -/
structure Fed (f : Computation) (m : String) (fed : List CellSpec) (k : Kernel κ σ) : Prop
    extends Computing f m k where
  described : ∀ spec, k.described? spec.id = some spec ↔ spec ∈ fed
  none_parked : k.parked = .empty
  resolved : ∀ c, k.graph.cell? c.id = some c → c.id ∉ k.graph.descendants k.pending →
    Resolved f k c
  owned : ∀ name b, k.names.get? name = some b →
    ∃ c, k.graph.cell? c.id = some c ∧ c.defs.has name = true

namespace Fed

theorem mem_of_live (h : Fed f m fed k) (hc : k.graph.cell? id = some c) : c.spec ∈ fed := by
  refine (h.described c.spec).1 ?_
  show k.described? c.id = some c.spec
  rw [Graph.cell?_id hc]
  exact described?_of_live hc

theorem congr (h : Fed f m fed k) {fed' : List CellSpec} (hsame : ∀ s, s ∈ fed ↔ s ∈ fed') :
    Fed f m fed' k :=
  { h with described := fun spec => (h.described spec).trans (hsame spec) }

omit [HashFunction] in
/-- Above a cell that is not below a pending one, nothing was put in place. -/
theorem ne_of_path (hg : k'.graph.WellFormed) (hlive : k'.graph.contains spec.id = true)
    (hpending : k'.pending.has spec.id = true)
    (hout : id ∉ k'.graph.descendants k'.pending) (hpath : ReflTransGen k'.graph.Edge a id) :
    a ≠ spec.id := by
  rintro rfl
  exact hout ((Graph.mem_descendants hg).2 ⟨spec.id, hpending, hlive, hpath⟩)

/-- Putting a new cell in place resolves none, but what is not below it stays resolved. -/
theorem registered_resolved (hfed : Fed f m fed k)
    (h : Registered (CellSpec.IsPlain m) k k' spec g dropped)
    (hnew : k.graph.contains spec.id = false) (hdropped : ∀ name, name ∉ dropped)
    (hd : k'.graph.cell? d.id = some d) (hout : d.id ∉ k'.graph.descendants k'.pending) :
    Resolved f k' d := by
  have hg := hfed.wellFormed
  have hg' : k'.graph.WellFormed := (hfed.edit (.registered h)).wellFormed
  have hlive : k'.graph.contains spec.id = true := (h.contains hg).2 (.inl rfl)
  -- the new cell is pending, and so it is not above this one
  have habove : ∀ {a}, ReflTransGen k'.graph.Edge a d.id → a ≠ spec.id := fun hpath =>
    ne_of_path hg' hlive ((h.pending spec.id).2 (.inl rfl)) hout hpath
  have hkept : ∀ {a b}, k.graph.Edge a b → k'.graph.Edge a b := by
    intro a b hedge
    have hne : ∀ {a}, k.graph.contains a = true → a ≠ spec.id := by
      rintro a hcontains rfl
      rw [hnew] at hcontains
      cases hcontains
    exact (h.edge_iff hg (hne hedge.contains_left) (hne hedge.contains_right)).2 hedge
  have hedge : ∀ {a b}, ReflTransGen k'.graph.Edge b d.id → k'.graph.Edge a b →
      k.graph.Edge a b := by
    intro a b hpath hab
    exact (h.edge_iff hg (habove (hpath.head hab)) (habove hpath)).1 hab
  -- a cycle through this cell runs above it, where all edges are old
  have hcycle : k'.graph.OnCycle d.id ↔ k.graph.OnCycle d.id := by
    have hback : ∀ {a}, TransGen k'.graph.Edge a d.id → TransGen k.graph.Edge a d.id := by
      intro a hpath
      induction hpath using TransGen.head_induction_on with
      | single hab => exact .single (hedge .refl hab)
      | head hab hpath ih => exact .head (hedge hpath.to_reflTransGen hab) ih
    exact ⟨hback, fun hpath => TransGen.mono (fun _ _ => hkept) _ _ hpath⟩
  have hne := habove (a := d.id) .refl
  obtain ⟨a, ha, -, hspec⟩ := h.before hg hne hd
  have hid := Graph.cell?_id ha
  have hbefore : d.id ∉ k.graph.descendants k.pending := by
    intro hmem
    obtain ⟨r, hr, hrlive, hpath⟩ := (Graph.mem_descendants hg).1 hmem
    exact hout ((Graph.mem_descendants hg').2 ⟨r, (h.pending r).2 (.inr hr),
      (h.contains hg).2 (.inr hrlive), ReflTransGen.mono (fun _ _ => hkept) _ _ hpath⟩)
  have hstatus : ∀ p, p ≠ spec.id → k'.graph.status? p = k.graph.status? p := by
    intro p hp
    have hreader : (g.readersOf dropped).has p = false := by
      by_contra hread
      obtain ⟨name, hname, -⟩ := (Graph.has_readersOf (hg.register h.accepted)).1
        (Bool.eq_true_of_not_eq_false hread)
      exact hdropped name hname
    exact h.status_kept hg hp hreader
  have hnames : ∀ name, k'.names.get? name = k.names.get? name := by
    intro name
    rw [h.names, if_neg (hdropped name)]
  have hresolved : Resolved f k a := hfed.resolved a (hid ▸ ha) (hid ▸ hbefore)
  refine (hresolved.congr ⟨fun name _ => h.isPrivate hg name, fun name _ _ => hnames name,
    fun name _ => hnames name⟩ (hid ▸ hcycle) (fun p => ?_) (hstatus a.id (hid ▸ hne))
      fun p hp => ?_).of_spec hspec
  · rw [hid]
    exact ⟨hedge .refl, hkept⟩
  · rw [hid] at hp
    exact hstatus p (habove (.single (hkept hp)))

/-- Putting a new cell in place. -/
theorem registered (hfed : Fed f m fed k)
    (h : Registered (CellSpec.IsPlain m) k k' spec g dropped)
    (hnew : k.graph.contains spec.id = false) : Fed f m (fed ++ [spec]) k' := by
  have hg := hfed.wellFormed
  have hnone : k.graph.cell? spec.id = none := by simpa [Graph.contains] using hnew
  have hdropped : ∀ name, name ∉ dropped := by
    intro name hname
    obtain ⟨-, c, hc, -⟩ := (h.mem_dropped name).1 hname
    rw [hnone] at hc
    cases hc
  refine
    { hfed.edit (.registered h) with
      described := fun s => ?_
      none_parked := ?_
      resolved := fun d hd hout => hfed.registered_resolved h hnew hdropped hd hout
      owned := fun name b hb => ?_ }
  · rw [described?_congr h.shape, Graph.cell?_register hg h.accepted, List.mem_append,
      List.mem_singleton, ← hfed.described]
    by_cases hid : s.id = spec.id
    · have hold : k.described? s.id = none := by
        unfold described?
        rw [hid, hnone]
        rfl
      rw [if_pos hid, hold]
      show some spec = some s ↔ _
      simp [eq_comm]
    · rw [if_neg hid]
      refine (or_iff_left ?_).symm
      rintro rfl
      exact hid rfl
  · refine Table.ext_get? fun id => ?_
    rw [h.parked, hfed.none_parked]
    split <;> rfl
  · rw [h.names, if_neg (hdropped name)] at hb
    obtain ⟨c, hc, hdef⟩ := hfed.owned name b hb
    have hne : c.id ≠ spec.id := by
      intro heq
      rw [heq, hnone] at hc
      cases hc
    have hlive : g.cell? c.id = some c := by
      rw [Graph.cell?_register hg h.accepted, if_neg hne]
      exact hc
    obtain ⟨d, hd, hshape⟩ := Graph.cell?_congr h.shape.symm hlive
    obtain ⟨hid, -, hdefs, -⟩ := Cell.shape_eq_iff.1 hshape
    exact ⟨d, hid ▸ hd, hdefs ▸ hdef⟩

/-- Registering a cell that shares nothing with the others is accepted, or does nothing. -/
theorem registerOne (hfed : Fed f m fed k) (hsep : Separate specs) (hsub : ∀ s ∈ fed, s ∈ specs)
    (hspec : spec ∈ specs) (hplain : spec.IsPlain m) :
    Fed f m (fed ++ [spec]) (k.registerOne spec) := by
  cases hlive : k.graph.cell? spec.id with
  | some c =>
    -- the live cell is just this one
    have hmem := hfed.mem_of_live hlive
    have hsame : c.spec = spec := hsep.ids (hsub _ hmem) hspec (Graph.cell?_id hlive)
    obtain ⟨-, hcode, hdefs, hrefs⟩ := CellSpec.mk.inj hsame
    have hunchanged : k.isUnchanged spec = true := by
      unfold isUnchanged
      rw [hfed.none_parked, hlive]
      show (c.matches spec) = true
      unfold Cell.matches
      rw [hcode, hdefs, hrefs]
      simp
    unfold Kernel.registerOne
    rw [if_pos hunchanged]
    refine hfed.congr fun s => ?_
    rw [List.mem_append, List.mem_singleton]
    refine (or_iff_left_of_imp ?_).symm
    rintro rfl
    exact hsame ▸ hmem
  | none =>
    have hnew : k.graph.contains spec.id = false := by
      unfold Graph.contains
      rw [hlive]
      rfl
    have hconflicts : k.graph.conflicts spec = [] := by
      refine List.eq_nil_iff_forall_not_mem.2 fun ⟨name, owner⟩ hin => ?_
      -- an owner of the name would share it with the new cell, and so be that cell
      obtain ⟨hname, -, hne, c, hc, hdef⟩ := (Graph.mem_conflicts hfed.wellFormed).1 hin
      have hmem := hfed.mem_of_live hc
      have hsame := hsep.defs (hsub _ hmem) hspec hdef hname
      exact hne ((Graph.cell?_id hc).symm.trans (congrArg CellSpec.id hsame))
    have haccept := Graph.register_ok_iff.2 ⟨hconflicts, rfl⟩
    have hchanged : k.isUnchanged spec = false := by
      unfold isUnchanged
      rw [hlive]
      exact Bool.and_false _
    obtain ⟨dropped, h⟩ := registerOne_registered hfed.toCoherent hplain hchanged haccept
    exact hfed.registered h hnew

theorem registerAll (hfed : Fed f m fed k) (hsep : Separate specs) (hsub : ∀ s ∈ fed, s ∈ specs)
    {batch : List CellSpec} (hbatch : ∀ s ∈ batch, s ∈ specs ∧ s.IsPlain m) :
    Fed f m (fed ++ batch) (batch.foldl Kernel.registerOne k) := by
  induction batch generalizing fed k with
  | nil => simpa using hfed
  | cons first rest ih =>
    obtain ⟨hmem, hplain⟩ := hbatch first (List.mem_cons_self ..)
    have hfirst := hfed.registerOne hsep hsub hmem hplain
    have hsub' : ∀ s ∈ fed ++ [first], s ∈ specs := by
      intro s hs
      rcases List.mem_append.1 hs with hs | hs
      · exact hsub s hs
      · rw [List.mem_singleton.1 hs]
        exact hmem
    have := ih hfirst hsub' fun s hs => hbatch s (List.mem_cons_of_mem _ hs)
    rwa [List.append_assoc] at this

/-- Registering a batch.  Nothing waits, so that nothing is tried again. -/
theorem registerCells (hfed : Fed f m fed k) (hsep : Separate specs) (hsub : ∀ s ∈ fed, s ∈ specs)
    {batch : List CellSpec} (hbatch : ∀ s ∈ batch, s ∈ specs ∧ s.IsPlain m) :
    Fed f m (fed ++ batch) (k.registerCells batch) := by
  have hall := hfed.registerAll hsep hsub hbatch
  unfold Kernel.registerCells
  rw [retryParked_of_none hall.none_parked]
  exact hall

/-- Running resolves what is pending, and all that is below. -/
theorem ran (hfed : Fed f m fed k) (hk' : Computing f m k') (h : Completed f m k.pending k k') :
    Fed f m fed k' := by
  have hg := hfed.wellFormed
  refine
    { hk' with
      described := fun s => ?_
      none_parked := h.parked.trans hfed.none_parked
      resolved := fun d hd _ => ?_
      owned := fun name b hb => ?_ }
  · rw [described?_congr h.shape]
    exact hfed.described s
  · by_cases hmem : d.id ∈ k.graph.descendants k.pending
    · exact h.resolved d hd hmem
    · obtain ⟨a, hid, ha, hspec⟩ := live_before h.shape hd
      rw [← hid] at hmem
      have hview := h.sameView hg hfed.toPlain ha hmem
      refine ((hfed.resolved a ha hmem).congr hview (Graph.onCycle_congr h.shape)
        (fun p => Graph.edge_congr h.shape) (h.outside_status a.id hmem) fun p hedge => ?_).of_spec
          hspec
      -- a parent in the run-set would put this cell there as well
      refine h.outside_status p fun hp => hmem ?_
      exact Graph.descendants_closed hg hp (.single hedge)
  -- a name without an owner has not moved, and what was bound before had one
  · have hsome : ∃ c, k.graph.cell? c.id = some c ∧ c.defs.has name = true := by
      by_contra hnone
      have hnames : k'.names.get? name = k.names.get? name := by
        refine h.outside_names name fun c hc _ => ?_
        by_contra hdef
        exact hnone ⟨c, hc, Bool.eq_true_of_not_eq_false hdef⟩
      rw [hnames] at hb
      exact hnone (hfed.owned name b hb)
    obtain ⟨c, hc, hdef⟩ := hsome
    obtain ⟨d, hid, hd, hspec⟩ := live_before h.shape.symm hc
    obtain ⟨-, -, hdefs, -⟩ := Cell.spec_eq_iff.1 hspec
    exact ⟨d, hd, hdefs ▸ hdef⟩

/-- Asking for cells to be run makes no more of them resolved. -/
theorem asked (hfed : Fed f m fed k) (hk' : Computing f m k') (h : Asked k k') :
    Fed f m fed k' := by
  refine
    { hk' with
      described := fun s => ?_
      none_parked := h.parked.trans hfed.none_parked
      resolved := fun d hd hout => ?_
      owned := fun name b hb => ?_ }
  · unfold described?
    rw [h.graph]
    exact hfed.described s
  · rw [h.graph] at hd hout
    have hbefore : d.id ∉ k.graph.descendants k.pending := by
      intro hmem
      obtain ⟨r, hr, hlive, hpath⟩ := (Graph.mem_descendants hfed.wellFormed).1 hmem
      exact hout ((Graph.mem_descendants hfed.wellFormed).2 ⟨r, h.pending r hr, hlive, hpath⟩)
    refine (hfed.resolved d hd hbefore).congr (.of_eq h.graph h.names) ?_ (fun p => ?_) ?_
      fun p _ => ?_
    all_goals rw [h.graph]
  · rw [h.names] at hb
    rw [h.graph]
    exact hfed.owned name b hb

/-- A new kernel was fed nothing. -/
theorem start {config : Config} {disk : Disk} {clock : Nat} {own : σ}
    (h : Kernel.start config disk clock own = .ok k) (hempty : k.session.cache.isEmpty = true) :
    Fed f config.privateMarker [] k := by
  have hcomputing : Computing f config.privateMarker k := .start h hempty
  obtain ⟨-, cache, heq⟩ := start_eq h
  have hnone : ∀ id, k.graph.cell? id = none := by
    intro id
    rw [heq]
    rfl
  refine
    { hcomputing with
      described := fun s => ?_
      none_parked := by rw [heq]
      resolved := fun c hc => ?_
      owned := fun name b hb => ?_ }
  · unfold described?
    rw [hnone]
    simp
  · rw [hnone] at hc
    cases hc
  · rw [heq] at hb
    cases hb

/-- Operations that register some of the cells, and delete none. -/
theorem carryOutAll? (hash : HashFunction.CollisionFree) (hx : x.Computes f) (hf : f.IsPlain)
    (hrounds : 2 ≤ rounds) (hsep : Separate specs) (hplain : ∀ s ∈ specs, s.IsPlain m)
    (ops : List Operation) (hops : ∀ op ∈ ops, ∀ s ∈ op.specs, s ∈ specs)
    (hdelete : ∀ cell, Operation.delete cell ∉ ops) (hfed : Fed f m fed k)
    (hsub : ∀ s ∈ fed, s ∈ specs) :
    ∃ k', k.carryOutAll? x rounds ops = some k' ∧
      Fed f m (fed ++ ops.flatMap Operation.specs) k' := by
  induction ops generalizing fed k with
  | nil => exact ⟨k, rfl, by simpa using hfed⟩
  | cons op ops ih =>
    have hspecs := hops op (List.mem_cons_self ..)
    have hstep : ∃ k₁, k.carryOut? x rounds op = some k₁ ∧ Fed f m (fed ++ op.specs) k₁ := by
      cases op with
      | register batch =>
        have hbatch : ∀ s ∈ batch, s ∈ specs ∧ s.IsPlain m := fun s hs =>
          ⟨hspecs s hs, hplain s (hspecs s hs)⟩
        exact ⟨_, rfl, hfed.registerCells hsep hsub hbatch⟩
      | delete cell => exact absurd (List.mem_cons_self ..) (hdelete cell)
      | run cells =>
        refine ⟨_, rfl, ?_⟩
        rw [show (Operation.run cells).specs = [] from rfl, List.append_nil]
        exact hfed.asked (hfed.runCells cells) (.runCells k cells)
      | runUntilIdle =>
        obtain ⟨k₁, hrun, hk₁, hcompleted, -⟩ := hfed.runUntilIdle hash hx hf hrounds
        refine ⟨k₁, hrun, ?_⟩
        rw [show Operation.runUntilIdle.specs = [] from rfl, List.append_nil]
        exact hfed.ran hk₁ hcompleted
    obtain ⟨k₁, hfirst, hfed₁⟩ := hstep
    have hsub₁ : ∀ s ∈ fed ++ op.specs, s ∈ specs := by
      intro s hs
      rcases List.mem_append.1 hs with hs | hs
      · exact hsub s hs
      · exact hspecs s hs
    obtain ⟨k', hrest, hfed'⟩ := ih (fun op hop => hops op (List.mem_cons_of_mem _ hop))
      (fun cell hmem => hdelete cell (List.mem_cons_of_mem _ hmem)) hfed₁ hsub₁
    refine ⟨k', carryOutAll?_cons hfirst hrest, ?_⟩
    rwa [List.flatMap_cons, ← List.append_assoc]

end Fed

/-! ## §3. There is one way to be resolved. -/

/-- Two kernels have the same status for a cell, and the same outputs of it. -/
structure Agree (k k' : Kernel κ σ) (c : Cell) : Prop where
  status : k.graph.status? c.id = k'.graph.status? c.id
  names : ∀ name, c.defs.has name = true → k.names.get? name = k'.names.get? name

omit [HashFunction] in
theorem Down.agree {now : CellStatus} (h : Down k c now) (h' : Down k' c now) : Agree k k' c :=
  ⟨h.status.trans h'.status.symm, fun name hdef =>
    (h.unbound name hdef).trans (h'.unbound name hdef).symm⟩

omit [HashFunction] in
/-- What is computed from the same inputs is the same. -/
theorem Current.agree (h : Current f k c) (h' : Current f k' c)
    (hinputs : k'.inputs c = k.inputs c) (hmissing : k'.missing c = k.missing c) :
    Agree k k' c := by
  unfold Current at h h'
  rw [hinputs, hmissing] at h'
  cases hcomputed : f (normalSource c.code) (k.inputs c) (k.missing c) with
  | ok o =>
    rw [hcomputed] at h h'
    exact ⟨h.1.trans h'.1.symm, fun name hdef => (h.2 name hdef).trans (h'.2 name hdef).symm⟩
  | error text =>
    rw [hcomputed] at h h'
    exact Down.agree h h'

namespace Fed

/-- Kernels that were fed the same cells describe them alike. -/
theorem described_eq (h : Fed f m fed k) (h' : Fed f m' fed k') (id : CellId) :
    k'.described? id = k.described? id := by
  have hiff : ∀ s, k'.described? id = some s ↔ k.described? id = some s := by
    have hone : ∀ {k : Kernel κ σ} {m : String} {s : CellSpec}, Fed f m fed k →
        (k.described? id = some s ↔ s.id = id ∧ s ∈ fed) := by
      intro k m s h
      constructor
      · intro hs
        obtain ⟨c, hc, rfl⟩ := live_of_described? hs
        exact ⟨Graph.cell?_id hc, h.mem_of_live hc⟩
      · rintro ⟨rfl, hs⟩
        exact (h.described s).2 hs
    exact fun s => (hone h').trans (hone h).symm
  exact Option.ext hiff

/-- A name that no cell defines is bound in neither. -/
theorem unbound (h : Fed f m fed k) (h' : Fed f m' fed k') {name : String}
    (hnone : ¬ ∃ c, k.graph.cell? c.id = some c ∧ c.defs.has name = true) :
    k'.names.get? name = none := by
  by_contra hbound
  obtain ⟨b, hb⟩ := Option.ne_none_iff_exists'.1 hbound
  obtain ⟨d, hd, hdef⟩ := h'.owned name b hb
  have hlive := (h.described_eq h' d.id).symm.trans (described?_of_live hd)
  obtain ⟨c, hc, hspec⟩ := live_of_described? hlive
  obtain ⟨hid, -, hdefs, -⟩ := Cell.spec_eq_iff.1 hspec
  exact hnone ⟨c, hid ▸ hc, hdefs ▸ hdef⟩

/-- What a cell reads is the same in two kernels that agree on the cells above it: a name that it
reads is defined by one of those, or bound in neither kernel. -/
theorem reads_agree (h : Fed f m fed k) (h' : Fed f m' fed k') (hc : k.graph.cell? c.id = some c)
    (hparents : ∀ d, k.graph.cell? d.id = some d → k.graph.Edge d.id c.id → Agree k k' d)
    {name : String} (href : c.refs.has name = true) (hdef : c.defs.has name = false) :
    k'.names.get? name = k.names.get? name := by
  by_cases hsome : ∃ d, k.graph.cell? d.id = some d ∧ d.defs.has name = true
  · obtain ⟨d, hd, hddef⟩ := hsome
    have hne : d.id ≠ c.id := by
      intro heq
      rw [heq, hc] at hd
      obtain rfl := Option.some.inj hd
      rw [hdef] at hddef
      cases hddef
    have hfeeds : k.graph.feeds d c = true :=
      Graph.feeds_iff.2 ⟨hne, name, hddef, href, h.public_refs hc href⟩
    exact ((hparents d hd ⟨d, c, hd, hc, hfeeds⟩).names name hddef).symm
  · rw [h.unbound h hsome, h.unbound h' hsome]

/-- Two kernels that were fed the same cells, and in which nothing is pending, agree on each. -/
theorem agree (h : Fed f m fed k) (h' : Fed f m' fed k') (hnone : ∀ id, k.pending.has id = false)
    (hnone' : ∀ id, k'.pending.has id = false) (hc : k.graph.cell? c.id = some c) :
    Agree k k' c := by
  have hdescribed := h.described_eq h'
  have hedge : ∀ {a b}, k'.graph.Edge a b ↔ k.graph.Edge a b := by
    intro a b
    rw [edge_iff_described h'.toPlain, edge_iff_described h.toPlain, hdescribed, hdescribed]
  have hcycle : ∀ {id}, k'.graph.OnCycle id ↔ k.graph.OnCycle id :=
    Graph.onCycle_iff_of_edge fun _ _ => hedge
  have hresolved : ∀ {c}, k.graph.cell? c.id = some c → Resolved f k c ∧ Resolved f k' c := by
    intro c hc
    obtain ⟨d, hd, hspec⟩ := live_of_described? ((hdescribed c.id).trans (described?_of_live hc))
    have hid := Graph.cell?_id hd
    have hout : c.id ∉ k.graph.descendants k.pending :=
      Graph.not_mem_descendants_of_none h.wellFormed hnone
    have hout' : d.id ∉ k'.graph.descendants k'.pending :=
      Graph.not_mem_descendants_of_none h'.wellFormed hnone'
    exact ⟨h.resolved c hc hout, (h'.resolved d (hid ▸ hd) hout').of_spec hspec⟩
  -- from the cycles down, the cells above a cell decide what becomes of it
  refine Graph.acyclic_induction (g := k.graph)
    (P := fun id => ∀ c, k.graph.cell? id = some c → Agree k k' c) ?_ ?_
    (Graph.contains_of_cell? hc) c hc
  · intro id hon c hc
    obtain rfl := Graph.cell?_id hc
    obtain ⟨hr, hr'⟩ := hresolved hc
    exact (hr.cyclic hon).agree (hr'.cyclic (hcycle.2 hon))
  · intro id hoff hparents c hc
    obtain rfl := Graph.cell?_id hc
    obtain ⟨hr, hr'⟩ := hresolved hc
    have hoff' : ¬ k'.graph.OnCycle c.id := fun hon => hoff (hcycle.1 hon)
    have hstatus : ∀ p, k.graph.Edge p c.id → k.graph.status? p = k'.graph.status? p := by
      intro p hp
      obtain ⟨d, hd⟩ := Option.isSome_iff_exists.1 hp.contains_left
      have hagree := (hparents p hp d hd).status
      rwa [Graph.cell?_id hd] at hagree
    by_cases hidle : ∀ p, k.graph.Edge p c.id → k.graph.status? p = some .idle
    · -- it may run in both, and reads the same
      have hreads : ∀ name, c.refs.has name = true → c.defs.has name = false →
          k'.names.get? name = k.names.get? name := fun name href hdef =>
        h.reads_agree h' hc (fun d hd hedge => hparents d.id hedge d hd) href hdef
      have hprivate : ∀ name, c.refs.has name = true →
          k'.graph.isPrivate name = k.graph.isPrivate name := by
        intro name href
        obtain ⟨d, hd, hspec⟩ := live_of_described?
          ((hdescribed c.id).trans (described?_of_live hc))
        obtain ⟨-, -, -, hrefs⟩ := Cell.spec_eq_iff.1 hspec
        rw [h.public_refs hc href, h'.public_refs (Graph.cell?_id hd ▸ hd) (hrefs ▸ href)]
      refine (hr.current hoff hidle).agree (hr'.current hoff' fun p hp => ?_)
        (inputs_congr hreads) (missing_congr hprivate hreads)
      have hp := hedge.1 hp
      rw [← hstatus p hp]
      exact hidle p hp
    · -- some cell above it is not idle, in both
      obtain ⟨p, hp⟩ := not_forall.1 hidle
      obtain ⟨hp, hnot⟩ := Classical.not_imp.1 hp
      refine (hr.below hoff ⟨p, hp, hnot⟩).agree (hr'.below hoff' ⟨p, hedge.2 hp, ?_⟩)
      rw [← hstatus p hp]
      exact hnot

/-- A new kernel comes to the end of being fed. -/
theorem of_feed (hash : HashFunction.CollisionFree) (hx : x.Computes f) (hf : f.IsPlain)
    (hrounds : 2 ≤ rounds) (hsep : Separate specs) {config : Config} {disk : Disk} {clock : Nat}
    {own : σ} (hstart : Kernel.start config disk clock own = .ok k)
    (hempty : k.session.cache.isEmpty = true)
    (hplain : ∀ s ∈ specs, s.IsPlain config.privateMarker) {ops : List Operation}
    (hops : Operation.Feed specs ops) :
    ∃ k', k.carryOutAll? x rounds (ops ++ [.runUntilIdle]) = some k' ∧
      Fed f config.privateMarker specs k' ∧ ∀ id, k'.pending.has id = false := by
  have hbegin : Fed f config.privateMarker [] k := .start hstart hempty
  have hspecs : ∀ op ∈ ops, ∀ s ∈ op.specs, s ∈ specs := fun op hop s hs =>
    (hops.registered s).2 ⟨op, hop, hs⟩
  obtain ⟨k₁, hfirst, hfed⟩ := hbegin.carryOutAll? hash hx hf hrounds hsep hplain ops hspecs
    hops.none_deleted fun s hs => absurd hs List.not_mem_nil
  obtain ⟨k', hlast, hk', hcompleted, hnone⟩ := hfed.runUntilIdle hash hx hf hrounds
  refine ⟨k', carryOutAll?_concat hfirst hlast, (hfed.ran hk' hcompleted).congr fun s => ?_, hnone⟩
  rw [List.nil_append, List.mem_flatMap]
  exact (hops.registered s).symm

end Fed

/-- With an executor that computes plain outputs from the normal source of a cell, what it reads and
what it misses, and with a hash function without collisions:
when cells that share no names, and none of whose names is private, are fed to two new kernels with
whatever settings, in whatever order and batches and with whatever runs in between, then both come
to the end of a last run with the same names, bound to the same, and the same status of each
cell. -/
theorem feedings_agree (hash : HashFunction.CollisionFree) (hx : x.Computes f) (hf : f.IsPlain)
    (hrounds : 2 ≤ rounds) (hsep : Separate specs) {config config' : Config} {disk disk' : Disk}
    {clock clock' : Nat} {own own' : σ} {new new' : Kernel κ σ}
    (hstart : Kernel.start config disk clock own = .ok new)
    (hstart' : Kernel.start config' disk' clock' own' = .ok new')
    (hempty : new.session.cache.isEmpty = true) (hempty' : new'.session.cache.isEmpty = true)
    (hplain : ∀ s ∈ specs, s.IsPlain config.privateMarker ∧ s.IsPlain config'.privateMarker)
    {ops ops' : List Operation} (hops : Operation.Feed specs ops)
    (hops' : Operation.Feed specs ops') :
    ∃ k k', new.carryOutAll? x rounds (ops ++ [.runUntilIdle]) = some k ∧
      new'.carryOutAll? x rounds (ops' ++ [.runUntilIdle]) = some k' ∧
      k.names.bindings = k'.names.bindings ∧ ∀ id, k.status? id = k'.status? id := by
  obtain ⟨k, hrun, hfed, hnone⟩ := Fed.of_feed hash hx hf hrounds hsep hstart hempty
    (fun s hs => (hplain s hs).1) hops
  obtain ⟨k', hrun', hfed', hnone'⟩ := Fed.of_feed hash hx hf hrounds hsep hstart' hempty'
    (fun s hs => (hplain s hs).2) hops'
  refine ⟨k, k', hrun, hrun', Table.ext_get? fun name => ?_, fun id => ?_⟩
  · show k.names.get? name = k'.names.get? name
    by_cases hsome : ∃ c, k.graph.cell? c.id = some c ∧ c.defs.has name = true
    · obtain ⟨c, hc, hdef⟩ := hsome
      exact (hfed.agree hfed' hnone hnone' hc).names name hdef
    · rw [hfed.unbound hfed hsome, hfed.unbound hfed' hsome]
  · have hlive : ∀ {k : Kernel κ σ} {m : String}, Fed f m specs k →
        k.status? id = k.graph.status? id := by
      intro k m h
      unfold status?
      rw [h.none_parked]
      rfl
    rw [hlive hfed, hlive hfed']
    cases hc : k.graph.cell? id with
    | some c =>
      obtain rfl := Graph.cell?_id hc
      exact (hfed.agree hfed' hnone hnone' hc).status
    | none =>
      have hdescribed := hfed.described_eq hfed' id
      unfold described? at hdescribed
      rw [hc] at hdescribed
      unfold Graph.status?
      rw [hc, Option.map_eq_none_iff.1 hdescribed]

end Kernel

/-- A cell, a reader of it, and two cells that read each other. -/
def tangle : List CellSpec :=
  [⟨⟨0⟩, "x", .ofList ["x"], .empty⟩, ⟨⟨1⟩, "y", .ofList ["y"], .ofList ["x"]⟩,
    ⟨⟨2⟩, "u = v", .ofList ["u"], .ofList ["v"]⟩, ⟨⟨3⟩, "v = u", .ofList ["v"], .ofList ["u"]⟩]

/-- Cell by cell from the last to the first, each with a run. -/
def tangleBackwards : List Operation :=
  tangle.reverse.flatMap fun spec => [.register [spec], .runUntilIdle]

theorem feed_tangle : Operation.Feed tangle [.register tangle] :=
  ⟨fun spec => by simp [Operation.specs], fun cell h => by simp at h⟩

theorem feed_tangleBackwards : Operation.Feed tangle tangleBackwards := by
  have hmem : ∀ op, op ∈ tangleBackwards ↔
      ∃ spec ∈ tangle, op = .register [spec] ∨ op = .runUntilIdle := by
    intro op
    simp [tangleBackwards]
  refine ⟨fun spec => ⟨fun h => ?_, ?_⟩, fun cell h => ?_⟩
  · exact ⟨.register [spec], (hmem _).2 ⟨spec, h, .inl rfl⟩, List.mem_singleton.2 rfl⟩
  · rintro ⟨op, hop, hspec⟩
    obtain ⟨s, hs, rfl | rfl⟩ := (hmem op).1 hop
    · rw [List.mem_singleton.1 hspec]
      exact hs
    · cases hspec
  · obtain ⟨s, -, hs | hs⟩ := (hmem _).1 h <;> cases hs

set_option maxRecDepth 20000 in
/-- Cell by cell and with a cache the tangle comes to the same as at once and without. -/
theorem Kernel.tangle_agrees :
    let _ := HashFunction.spelled
    ∃ k k', (blank false).carryOutAll? .collector 2 ([.register tangle] ++ [.runUntilIdle]) =
        some k ∧
      (blank true).carryOutAll? .collector 2 (tangleBackwards ++ [.runUntilIdle]) = some k' ∧
      k.names.bindings = k'.names.bindings ∧ k'.status? ⟨1⟩ = some .idle ∧
      k'.status? ⟨2⟩ = some .error := by
  intro _
  obtain ⟨k, k', hrun, hrun', hnames, hstatus⟩ := feedings_agree HashFunction.spelled_collisionFree
    Executor.collector_computes Computation.collect_isPlain (le_refl 2)
    (show Separate tangle by decide) (start_blank false) (start_blank true) rfl rfl (by decide)
    feed_tangle feed_tangleBackwards
  have hend : ((blank false).carryOutAll? .collector 2 ([.register tangle] ++ [.runUntilIdle])).map
      (fun k => (k.status? ⟨1⟩, k.status? ⟨2⟩)) = some (some .idle, some .error) := by cbv
  rw [hrun, Option.map_some, Option.some.injEq, Prod.mk.injEq, hstatus, hstatus] at hend
  exact ⟨k, k', hrun, hrun', hnames, hend⟩

end Notebook
