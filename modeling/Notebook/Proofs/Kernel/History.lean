/-
  Notebook.Proofs.Kernel.History — operations on a kernel, one after another.

  Whoever works with a notebook registers and deletes cells, asks for cells to be run, and runs
  what is pending.  With an executor that computes, a kernel that starts with an empty cache stays
  in order and plain through all of it, and every run ends.

  Main results:
    * `Calm.start` / `Calm.edit` / `Calm.runCells` — edits and requests leave a kernel calm,
    * `Computing.start` / `Computing.init` — a kernel is in order and plain in the beginning,
    * `Computing.edits` — edits keep it so,
    * `Computing.carryOutAll?` — operations come to an end, and keep whatever edits, requests and
      completed runs keep.
-/
import Notebook.Proofs.Kernel.Completed

namespace Notebook

open Relation

/-- What can be asked of a kernel. -/
inductive Operation where
  /-- New or edited cells. -/
  | register (specs : List CellSpec)
  | delete (cell : CellId)
  /-- Run these cells, whatever the cache has. -/
  | run (cells : List CellId)
  /-- Run what is pending until nothing is. -/
  | runUntilIdle

/-- The cells that an operation describes. -/
def Operation.specs : Operation → List CellSpec
  | .register specs => specs
  | _ => []

/-- A cache without entries finds nothing. -/
theorem Cache.entry?_of_isEmpty {cache : Cache} (h : cache.isEmpty = true) (scope : ScopeId)
    (digest : Digest) : cache.entry? scope digest = none := by
  have hshelves : ∀ entries : List (ScopeId × Table Digest CacheEntry),
      entries.foldr (fun e sum => e.2.size + sum) 0 = 0 → ∀ e ∈ entries, e.2.size = 0 := by
    intro entries hsum
    induction entries with
    | nil => exact fun e he => absurd he List.not_mem_nil
    | cons first rest ih =>
      rw [List.foldr_cons] at hsum
      intro e he
      rcases List.mem_cons.1 he with rfl | he
      · omega
      · exact ih (by omega) e he
  unfold entry?
  cases hshelf : cache.entries.get? scope with
  | none => rfl
  | some shelf =>
    have hmem := (Table.get?_eq_some_iff _).1 hshelf
    have hsum : cache.entries.total Table.size = 0 := beq_iff_eq.1 h
    have hsize : shelf.size = 0 := hshelves _ hsum _ hmem
    have hnil : shelf.entries = [] := List.eq_nil_of_length_eq_zero hsize
    show Entries.find? digest shelf.entries = none
    rw [hnil]
    rfl

namespace Kernel

variable [HashFunction] {κ σ : Type} {k k' : Kernel κ σ} {f : Computation} {m : String}
  {x : Executor κ σ} {rounds : Nat} {S : CellSpec → Prop}

/-- Carries out one operation.  What it fails with changes nothing; nothing comes of a run that
takes more than `rounds` rounds. -/
def carryOut? (x : Executor κ σ) (rounds : Nat) (k : Kernel κ σ) : Operation → Option (Kernel κ σ)
  | .register specs => some (k.registerCells specs)
  | .delete cell => some (k.orUnchanged (k.deleteCell cell)).2
  | .run cells => some (k.runCells cells).2
  | .runUntilIdle => (k.runUntilIdle? x rounds).map (·.2)

/-- Carries out operations, one after another. -/
def carryOutAll? (x : Executor κ σ) (rounds : Nat) (k : Kernel κ σ) (ops : List Operation) :
    Option (Kernel κ σ) := ops.foldlM (carryOut? x rounds) k

theorem carryOutAll?_cons {k₁ : Kernel κ σ} {ops : List Operation} {op : Operation}
    (hfirst : k.carryOut? x rounds op = some k₁) (h : k₁.carryOutAll? x rounds ops = some k') :
    k.carryOutAll? x rounds (op :: ops) = some k' := by
  show (k.carryOut? x rounds op).bind (fun k => k.carryOutAll? x rounds ops) = some k'
  rw [hfirst]
  exact h

theorem carryOutAll?_concat {k₁ : Kernel κ σ} {ops : List Operation} {op : Operation}
    (h : k.carryOutAll? x rounds ops = some k₁) (hlast : k₁.carryOut? x rounds op = some k') :
    k.carryOutAll? x rounds (ops ++ [op]) = some k' := by
  unfold carryOutAll? at h ⊢
  rw [List.foldlM_append, h]
  show (some k₁).bind (fun k => [op].foldlM (carryOut? x rounds) k) = some k'
  rw [Option.bind_some, List.foldlM_cons, hlast]
  rfl

/-! ## §1. Edits and requests leave a kernel calm. -/

omit [HashFunction] in
/-- Names that were unbound leave plain names. -/
theorem PlainNames.of_subset (hk : k.PlainNames)
    (h : ∀ name b, k'.names.get? name = some b → k.names.get? name = some b) : k'.PlainNames :=
  fun name b hb => hk name b (h name b hb)

/-- A step of an edit leaves a kernel calm. -/
theorem Calm.edit (hk : Calm f S k) (hg : k.graph.WellFormed) (h : Edit S k k') : Calm f S k' := by
  have hnames := hk.names.of_subset fun name b => h.names_subset
  cases h with
  | removed h =>
    refine hk.after (fun id d hd => ?_) hnames h.session
    obtain ⟨-, a, ha, hspec⟩ := h.before hd
    exact hspec ▸ hk.cells id a ha
  | noted h =>
    refine hk.after ?_ hnames (h.session ▸ .refl _)
    rw [h.graph]
    exact hk.cells
  | @registered spec g dropped h =>
    refine hk.after (fun id d hd => ?_) hnames h.session
    -- the cell that was put in place, or one that was live before
    obtain ⟨a, ha, hshape⟩ := Graph.cell?_congr h.shape hd
    rw [Graph.cell?_register hg h.accepted] at ha
    rw [← Cell.spec_of_shape hshape]
    split at ha
    · obtain rfl := Option.some.inj ha
      exact h.asked
    · exact hk.cells id a ha

/-- A request leaves a kernel calm. -/
theorem Calm.runCells (hk : Calm f S k) (cells : List CellId) : Calm f S (k.runCells cells).2 := by
  have hasked := Asked.runCells k cells
  refine hk.after ?_ ?_ ?_
  · rw [hasked.graph]
    exact hk.cells
  · unfold PlainNames
    rw [hasked.names]
    exact hk.names
  · rw [runCells_session]
    exact .refl _

omit [HashFunction] in
theorem start_marker {config : Config} {disk : Disk} {clock : Nat} {own : σ}
    (h : Kernel.start config disk clock own = .ok k) :
    k.graph.privateMarker = config.privateMarker := by
  obtain ⟨hvalid, cache, heq⟩ := start_eq h
  have hconfig : k.config = config := by
    unfold Config.validate at hvalid
    split at hvalid
    · cases hvalid
    · exact (Except.ok.inj hvalid).symm
  rw [heq, hconfig]

/-- A new kernel whose cache is empty is calm. -/
theorem Calm.start {config : Config} {disk : Disk} {clock : Nat} {own : σ}
    (h : Kernel.start config disk clock own = .ok k) (hempty : k.session.cache.isEmpty = true) :
    Calm f S k := by
  obtain ⟨-, cache, heq⟩ := start_eq h
  have hcells : k.graph.cells = [] := by rw [heq]
  refine ⟨fun id c hc => ?_, fun name b hb => ?_, ?_, ?_, ?_, fun scope digest e he => ?_⟩
  · have hmem := Graph.cell?_mem hc
    rw [hcells] at hmem
    exact absurd hmem List.not_mem_nil
  · rw [heq] at hb
    cases hb
  · rw [heq]
  · rw [heq]
  · rw [heq]
  · rw [Cache.entry?_of_isEmpty hempty] at he
    cases he

/-! ## §2. Kernels that compute. -/

/-- A kernel in order and plain, whose cells are plain whether they are live or wait. -/
structure Computing (f : Computation) (m : String) (k : Kernel κ σ) : Prop extends
    InOrder (CellSpec.IsPlain m) k, Plain f m k

namespace Computing

/-- A step of an edit leaves a kernel plain. -/
theorem plain_edit (hk : Computing f m k) (h : Edit (CellSpec.IsPlain m) k k') :
    Plain f m k' :=
  ⟨hk.toPlain.toCalm.edit hk.wellFormed h, (h.marker hk.wellFormed).trans hk.marker⟩

theorem edit (hk : Computing f m k) (h : Edit (CellSpec.IsPlain m) k k') : Computing f m k' :=
  ⟨hk.toInOrder.edits (.single h), hk.plain_edit h⟩

theorem edits (hk : Computing f m k) (h : ReflTransGen (Edit (CellSpec.IsPlain m)) k k') :
    Computing f m k' := by
  induction h with
  | refl => exact hk
  | tail _ hstep ih => exact ih.edit hstep

theorem runCells (hk : Computing f m k) (cells : List CellId) :
    Computing f m (k.runCells cells).2 := by
  have hasked := Asked.runCells k cells
  exact ⟨hk.toInOrder.asked hasked, hk.toPlain.toCalm.runCells cells,
    hasked.graph ▸ hk.marker⟩

/-- A new kernel whose cache is empty. -/
theorem start {config : Config} {disk : Disk} {clock : Nat} {own : σ}
    (h : Kernel.start config disk clock own = .ok k) (hempty : k.session.cache.isEmpty = true) :
    Computing f config.privateMarker k :=
  ⟨.start h, .start h hempty, start_marker h⟩

/-- Binding plain values in the beginning changes nothing that matters. -/
theorem init (hk : Computing f m k) {initial : List (String × Binding)}
    (hinitial : ∀ e ∈ initial, e.2.isStandard = true) : Computing f m (k.init initial) := by
  refine ⟨hk.toInOrder.same rfl rfl,
    hk.toPlain.toCalm.after hk.cells (fun name b hb => ?_) (.refl _), hk.marker⟩
  obtain ⟨e, he, rfl⟩ := Table.mem_of_get?_ofList hb
  exact hinitial e he

/-! ## §3. Operations. -/

/-- A run comes to an end, and leaves nothing pending. -/
theorem runUntilIdle (hash : HashFunction.CollisionFree) (hx : x.Computes f) (hf : f.IsPlain)
    (hrounds : 2 ≤ rounds) (hk : Computing f m k) :
    ∃ k', k.carryOut? x rounds .runUntilIdle = some k' ∧ Computing f m k' ∧
      Completed f m k.pending k k' ∧ ∀ id, k'.pending.has id = false := by
  obtain ⟨report, k', hrun, hin, hcompleted, hnone⟩ := runUntilIdle?_completes hash hx hf
    hk.toInOrder hk.toPlain hrounds
  refine ⟨k', ?_, ⟨hin, hcompleted.plain⟩, hcompleted, hnone⟩
  show (k.runUntilIdle? x rounds).map (·.2) = some k'
  rw [hrun]
  rfl

/-- What the three kinds of steps keep, every operation keeps, and it comes to an end. -/
theorem carryOut? (hash : HashFunction.CollisionFree) (hx : x.Computes f) (hf : f.IsPlain)
    (hrounds : 2 ≤ rounds) {P : Kernel κ σ → Prop}
    (hedit : ∀ k k' : Kernel κ σ, Computing f m k → Edit (CellSpec.IsPlain m) k k' → P k → P k')
    (hasked : ∀ k k' : Kernel κ σ, Asked k k' → P k → P k')
    (hran : ∀ k k' : Kernel κ σ, Computing f m k → Completed f m k.pending k k' → P k → P k')
    (op : Operation) (hop : ∀ spec ∈ op.specs, spec.IsPlain m) (hk : Computing f m k) (hp : P k) :
    ∃ k', k.carryOut? x rounds op = some k' ∧ Computing f m k' ∧ P k' := by
  have hedits : ∀ {k' : Kernel κ σ}, ReflTransGen (Edit (CellSpec.IsPlain m)) k k' → P k' := by
    intro k' h
    induction h with
    | refl => exact hp
    | tail hchain hstep ih => exact hedit _ _ (hk.edits hchain) hstep ih
  cases op with
  | register specs =>
    have hchain := registerCells_edits hk.toCoherent hk.waitFor hop
    exact ⟨_, rfl, hk.edits hchain, hedits hchain⟩
  | delete cell =>
    refine ⟨_, rfl, ?_⟩
    cases hdelete : k.deleteCell cell with
    | ok k' =>
      have hchain := deleteCell_edits hk.toCoherent hk.waitFor hdelete
      exact ⟨hk.edits hchain, hedits hchain⟩
    | error e => exact ⟨hk, hp⟩
  | run cells => exact ⟨_, rfl, hk.runCells cells, hasked _ _ (.runCells k cells) hp⟩
  | runUntilIdle =>
    obtain ⟨k', hrun, hk', hcompleted, -⟩ := hk.runUntilIdle hash hx hf hrounds
    exact ⟨k', hrun, hk', hran _ _ hk hcompleted hp⟩

/-- So do operations one after another. -/
theorem carryOutAll? (hash : HashFunction.CollisionFree) (hx : x.Computes f) (hf : f.IsPlain)
    (hrounds : 2 ≤ rounds) {P : Kernel κ σ → Prop}
    (hedit : ∀ k k' : Kernel κ σ, Computing f m k → Edit (CellSpec.IsPlain m) k k' → P k → P k')
    (hasked : ∀ k k' : Kernel κ σ, Asked k k' → P k → P k')
    (hran : ∀ k k' : Kernel κ σ, Computing f m k → Completed f m k.pending k k' → P k → P k')
    (ops : List Operation) (hops : ∀ op ∈ ops, ∀ spec ∈ op.specs, spec.IsPlain m)
    (hk : Computing f m k) (hp : P k) :
    ∃ k', k.carryOutAll? x rounds ops = some k' ∧ Computing f m k' ∧ P k' := by
  induction ops generalizing k with
  | nil => exact ⟨k, rfl, hk, hp⟩
  | cons op ops ih =>
    obtain ⟨k₁, hfirst, hk₁, hp₁⟩ := hk.carryOut? hash hx hf hrounds hedit hasked hran op
      (hops op (List.mem_cons_self ..)) hp
    obtain ⟨k', hrest, hk', hp'⟩ := ih (fun op hop => hops op (List.mem_cons_of_mem _ hop)) hk₁ hp₁
    exact ⟨k', carryOutAll?_cons hfirst hrest, hk', hp'⟩

end Computing

end Kernel

/-! ## §4. An executor that computes. -/

/-- Lists the values that are read, under the given names; fails when a name is missing. -/
def Computation.collectUnder (names : List String) : Computation := fun _ inputs missing =>
  match missing with
  | [] =>
    let read := Binding.value (.array (inputs.values.filterMap Binding.value?))
    .ok { bindings := .ofList (names.map fun name => (name, read)) }
  | name :: _ => .error name

/-- Lists the values that are read, under two names; fails when a name is missing. -/
def Computation.collect : Computation := fun _ inputs missing =>
  match missing with
  | [] =>
    let read := Binding.value (.array (inputs.values.filterMap Binding.value?))
    .ok { bindings := .ofList [("x", read), ("y", read)] }
  | name :: _ => .error name

/-- Lists of plain values are plain. -/
theorem Computation.collectUnder_isPlain (names : List String) :
    (Computation.collectUnder names).IsPlain := by
  intro source inputs missing output hinputs houtput
  unfold collectUnder at houtput
  split at houtput
  · obtain rfl := Except.ok.inj houtput
    -- the list has only values that were read
    have hread : Json.areStandard (inputs.values.filterMap Binding.value?) = true := by
      refine Json.areStandard_iff.2 fun v hv => ?_
      obtain ⟨b, hb, hvalue⟩ := List.mem_filterMap.1 hv
      obtain ⟨e, he, rfl⟩ := List.mem_map.1 hb
      obtain ⟨w, hw, hstandard⟩ := Binding.isStandard_iff.1
        (hinputs e.1 e.2 ((Table.get?_eq_some_iff _).2 he))
      rw [hw] at hvalue
      obtain rfl := Option.some.inj hvalue
      exact hstandard
    refine CellOutput.isStandard_iff.2 fun name b hb => ?_
    obtain ⟨e, he, rfl⟩ := Table.mem_of_get?_ofList hb
    obtain ⟨-, -, rfl⟩ := List.mem_map.1 he
    exact hread
  · cases houtput

theorem Computation.collect_isPlain : Computation.collect.IsPlain := by
  have heq : Computation.collect = .collectUnder ["x", "y"] := by
    funext source inputs missing
    cases missing <;> rfl
  rw [heq]
  exact Computation.collectUnder_isPlain _

/-- The executor that computes and does nothing else. -/
def Executor.computing (f : Computation) : Executor Unit Unit where
  execute q := .done (f (normalSource q.code) q.inputs q.missing)
  observe _ _ := .done (.ok ())

theorem Executor.computing_computes (f : Computation) : (Executor.computing f).Computes f :=
  fun _ => rfl

/-- The executor that lists what is read. -/
def Executor.collector : Executor Unit Unit where
  execute q := .done (Computation.collect (normalSource q.code) q.inputs q.missing)
  observe _ _ := .done (.ok ())

theorem Executor.collector_computes : Executor.collector.Computes .collect := fun _ => rfl

/-- A new kernel without anything. -/
def Kernel.blank (cellCache : Bool) : Kernel Unit Unit :=
  { config := { cellCache }, session := { own := () } }

theorem Kernel.start_blank (cellCache : Bool) :
    Kernel.start { cellCache } {} 0 () = .ok (Kernel.blank cellCache) := rfl

end Notebook
