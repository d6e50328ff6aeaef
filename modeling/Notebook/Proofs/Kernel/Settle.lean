/-
  Notebook.Proofs.Kernel.Settle — what becomes of one cell, and that nothing else moves.

  Inside a round the kernel touches one cell at a time.  Whether the cell is run, served, passed
  over or blocked, the result has one form: the cell gets a status and an error or none, the names
  that it defines are bound to its outputs or to nothing, and everything else is as before, the
  session apart.  `Settled` is that form; the rest of the development never opens `failCell` or
  `runLive` again.

  Main results:
    * `failCell_settled` — failing a cell settles it without outputs,
    * `runLive_settled` — running a cell settles it, with the outputs it has if it succeeds,
    * `Session.aborted_run` — no program takes a request to stop back.
-/
import Notebook.Kernel.Run
import Notebook.Proofs.Graph.Plan

namespace Notebook

/-! ## §1. Names. -/

namespace Namespace

theorem get?_insert (n : Namespace) (name : String) (b : Binding) (a : String) :
    (n.insert name b).get? a = if a = name then some b else n.get? a :=
  Table.get?_insert n.bindings name b a

theorem get?_remove (n : Namespace) (name a : String) :
    (n.remove name).get? a = if a = name then none else n.get? a := by
  unfold remove
  split
  · exact Table.get?_erase n.bindings name a
  · rename_i hout
    by_cases h : a = name
    · subst h
      rw [if_pos rfl]
      exact Option.not_isSome_iff_eq_none.1 hout
    · rw [if_neg h]

theorem get?_removeAll (n : Namespace) (names : List String) (a : String) :
    (names.foldl remove n).get? a = if a ∈ names then none else n.get? a := by
  induction names generalizing n with
  | nil => simp
  | cons first rest ih =>
    rw [List.foldl_cons, ih, get?_remove]
    by_cases hrest : a ∈ rest <;> by_cases hfirst : a = first <;> simp [hrest, hfirst]

end Namespace

namespace Kernel

variable {κ σ : Type} {k k' k₁ : Kernel κ σ} {c : Cell}

/-- A cell is handed the bindings of the names that it reads and does not define. -/
theorem get?_inputs (k : Kernel κ σ) (c : Cell) (name : String) : (k.inputs c).get? name =
    if c.refs.has name && !c.defs.has name then k.names.get? name else none := by
  unfold inputs
  rw [Table.get?_filter, show k.names.bindings.get? name = k.names.get? name from rfl]
  cases k.names.get? name <;> cases c.refs.has name <;> cases c.defs.has name <;> rfl

/-- Unbinding touches the names and the names of elements, and nothing else. -/
theorem unbindAll_eq (k : Kernel κ σ) (names : List String) : k.unbindAll names =
    { k with
      names := names.foldl Namespace.remove k.names
      session := { k.session with
        elements := names.foldl ElementRegistry.unbind k.session.elements } } := by
  induction names generalizing k with
  | nil => rfl
  | cons first rest ih =>
    show (k.unbind first).unbindAll rest = _
    rw [ih]
    rfl

/-- Binding outputs touches the names that the cell defines and the names of elements, and nothing
else. -/
theorem bindOutputs_eq (k : Kernel κ σ) (c : Cell) (output : CellOutput) :
    ∃ names elements, k.bindOutputs c output =
      { k with names, session := { k.session with elements } } ∧
      ∀ a, names.get? a =
        if c.defs.has a then (output.bindings.get? a).or (k.names.get? a) else k.names.get? a := by
  -- on the entries of the outputs, which ascend; the table itself is no structure to go along
  suffices key : ∀ (es : List (String × Binding)) (k : Kernel κ σ), Entries.Ascending es →
      ∃ names elements, es.foldl
        (fun k (p : String × Binding) => if c.defs.has p.1 then k.bind p.1 p.2 else k) k =
        { k with names, session := { k.session with elements } } ∧
        ∀ a, names.get? a =
          if c.defs.has a then (Entries.find? a es).or (k.names.get? a) else k.names.get? a from
    key output.bindings.entries k output.bindings.ascending
  intro es
  induction es with
  | nil =>
    intro k _
    exact ⟨k.names, k.session.elements, rfl, fun a => by simp [Entries.find?]⟩
  | cons e rest ih =>
    obtain ⟨name, b⟩ := e
    intro k hasc
    obtain ⟨hlater, hrest⟩ := List.pairwise_cons.1 hasc
    by_cases hdef : c.defs.has name = true
    · obtain ⟨names, elements, heq, hget⟩ := ih (k.bind name b) hrest
      have hbind : ∃ e, k.bind name b =
          { k with
            names := k.names.insert name b
            session := { k.session with elements := e } } := by
        cases b with
        | element id => exact ⟨k.session.elements.bind name id, rfl⟩
        | _ => exact ⟨k.session.elements, rfl⟩
      obtain ⟨e, hbind⟩ := hbind
      refine ⟨names, elements, ?_, fun a => ?_⟩
      · simp only [List.foldl_cons, hdef, if_true]
        rw [heq, hbind]
      · have hnames : (k.bind name b).names = k.names.insert name b := by rw [hbind]
        rw [hget, hnames, Namespace.get?_insert]
        by_cases ha : a = name
        · -- a key occurs once, so the rest of the entries say nothing about it
          subst ha
          have hnone : Entries.find? a rest = none := Entries.find?_eq_none_of_lt hlater
          simp [Entries.find?, hnone, hdef]
        · have hcmp : compare a name ≠ .eq := fun h => ha (Std.LawfulEqOrd.compare_eq_iff_eq.1 h)
          simp [Entries.find?, ha, hcmp]
    · obtain ⟨names, elements, heq, hget⟩ := ih k hrest
      refine ⟨names, elements, ?_, fun a => ?_⟩
      · simp only [List.foldl_cons, hdef, Bool.false_eq_true, if_false]
        exact heq
      · rw [hget]
        by_cases ha : a = name
        · subst ha
          simp [hdef]
        · have hcmp : compare a name ≠ .eq := fun h => ha (Std.LawfulEqOrd.compare_eq_iff_eq.1 h)
          simp [Entries.find?, hcmp]

/-! ## §2. What no cell of a round changes. -/

/-- The parts of a kernel that stay while cells are run: the cells and their edges, the settings,
the parked registrations and what is to be run next. -/
structure Undisturbed (k k' : Kernel κ σ) : Prop where
  shape : k'.graph.shape = k.graph.shape
  config : k'.config = k.config
  parked : k'.parked = k.parked
  turns : k'.turns = k.turns
  pending : k'.pending = k.pending
  forced : k'.forced = k.forced

namespace Undisturbed

theorem refl (k : Kernel κ σ) : Undisturbed k k := ⟨rfl, rfl, rfl, rfl, rfl, rfl⟩

theorem trans (h : Undisturbed k k₁) (h' : Undisturbed k₁ k') : Undisturbed k k' :=
  ⟨h'.shape.trans h.shape, h'.config.trans h.config, h'.parked.trans h.parked,
    h'.turns.trans h.turns, h'.pending.trans h.pending, h'.forced.trans h.forced⟩

theorem wellFormed (h : Undisturbed k k') (hg : k.graph.WellFormed) : k'.graph.WellFormed :=
  hg.congr h.shape.symm

end Undisturbed

/-- A cell is settled: it has its status, its error if any, and its outputs bound; all else is as
it was. -/
structure Settled (k k' : Kernel κ σ) (c : Cell) (now : CellStatus) (error : Option CellError)
    (outputs : Table String Binding) : Prop extends Undisturbed k k' where
  status : ∀ id, k'.graph.status? id = if id = c.id then some now else k.graph.status? id
  errors : ∀ id, k'.errors.get? id = if id = c.id then error else k.errors.get? id
  names : ∀ name, k'.names.get? name =
    if c.defs.has name then outputs.get? name else k.names.get? name

/-- What the session does is no part of it. -/
theorem Settled.withSession {now : CellStatus} {error : Option CellError}
    {outputs : Table String Binding} (h : Settled k k' c now error outputs) (s : Session κ σ) :
    Settled k { k' with session := s } c now error outputs :=
  ⟨⟨h.shape, h.config, h.parked, h.turns, h.pending, h.forced⟩, h.status, h.errors, h.names⟩

theorem status?_setStatus_of_live {g : Graph} {id : CellId} (hc : g.cell? id = some c)
    (now : CellStatus) (a : CellId) :
    (g.setStatus id now).status? a = if a = id then some now else g.status? a := by
  rw [Graph.status?_setStatus]
  by_cases h : a = id
  · subst h
    simp [Graph.status?_of_cell? hc]
  · simp [h]

/-- Giving several cells a status touches the graph only. -/
theorem setStatusAll_eq (k : Kernel κ σ) (now : CellStatus) (ids : List CellId) :
    ∃ published, ids.foldl (fun k id => k.setStatus id now) k =
      { k with graph := k.graph.withStatus now ids, published } := by
  induction ids generalizing k with
  | nil => exact ⟨k.published, rfl⟩
  | cons first rest ih =>
    obtain ⟨published, heq⟩ := ih (k.setStatus first now)
    exact ⟨published, heq⟩

/-- A reset makes every live cell idle, and keeps of the errors those of parked cells. -/
theorem reset_eq (k : Kernel κ σ) : ∃ published, k.reset =
    { k with
      graph := k.graph.withStatus .idle k.graph.ids
      names := k.names.reset
      session := k.session.reset
      pending := .empty
      forced := .empty
      errors := k.errors.filter fun _ e => e.isMultipleDefinition
      published } :=
  setStatusAll_eq ({ k with
    names := k.names.reset
    session := k.session.reset
    pending := .empty
    forced := .empty
    errors := k.errors.filter fun _ e => e.isMultipleDefinition } : Kernel κ σ) .idle k.graph.ids

/-! ## §3. Failing. -/

/-- A cell that fails, or that cannot run, has no outputs. -/
theorem failCell_settled {d : Cell} (hd : k.graph.cell? c.id = some d) (hdefs : d.defs = c.defs)
    (now : CellStatus) (e : CellError) :
    Settled k (k.failCell c.id now e) c now (some e) .empty := by
  have hnames : ((k.graph.cell? c.id).map fun c => c.defs.toList).getD [] = c.defs.toList := by
    rw [hd, ← hdefs]
    rfl
  unfold failCell
  simp only [hnames, unbindAll_eq]
  refine ⟨⟨Graph.shape_setStatus .., rfl, rfl, rfl, rfl, rfl⟩, fun id => ?_, fun id => ?_,
    fun name => ?_⟩
  · exact status?_setStatus_of_live hd now id
  · exact Table.get?_insert k.errors c.id e id
  · show (c.defs.toList.foldl Namespace.remove k.names).get? name = _
    rw [Namespace.get?_removeAll]
    simp only [OrderedSet.mem_toList, Table.get?_empty]

theorem failCell_session (k : Kernel κ σ) (id : CellId) (now : CellStatus) (e : CellError) :
    ∃ elements, (k.failCell id now e).session = { k.session with elements } := by
  unfold failCell
  simp only [unbindAll_eq]
  exact ⟨_, rfl⟩

/-! ## §4. Running. -/

/-- A kernel that is about to run a cell: the error and the outputs of the last run are gone. -/
def begun (k : Kernel κ σ) (c : Cell) : Kernel κ σ :=
  let k := k.setStatus c.id .running
  let k := { k with errors := k.errors.erase c.id }.unbindAll c.defs.toList
  { k with session := k.session.beginCell c.id }

/-- What the executor is asked when a cell is run now. -/
def requestOf (k : Kernel κ σ) (c : Cell) : Request :=
  ⟨c.id, c.code, k.inputs c, k.missing c⟩

theorem begun_settled (hc : k.graph.cell? c.id = some c) :
    Settled k (k.begun c) c .running none .empty := by
  unfold begun
  simp only [unbindAll_eq]
  refine ⟨⟨Graph.shape_setStatus .., rfl, rfl, rfl, rfl, rfl⟩, fun id => ?_, fun id => ?_,
    fun name => ?_⟩
  · exact status?_setStatus_of_live hc .running id
  · exact Table.get?_erase k.errors c.id id
  · show (c.defs.toList.foldl Namespace.remove k.names).get? name = _
    rw [Namespace.get?_removeAll]
    simp only [OrderedSet.mem_toList, Table.get?_empty]

/-- Settling a cell anew forgets how it was settled before. -/
theorem Settled.again {now now' : CellStatus} {e e' : Option CellError}
    {outputs outputs' : Table String Binding} (h : Settled k k₁ c now e outputs)
    (h' : Settled k₁ k' c now' e' outputs') : Settled k k' c now' e' outputs' := by
  refine ⟨h.toUndisturbed.trans h'.toUndisturbed, fun id => ?_, fun id => ?_, fun name => ?_⟩
  · rw [h'.status, h.status]
    split <;> rfl
  · rw [h'.errors, h.errors]
    split <;> rfl
  · rw [h'.names, h.names]
    split <;> rfl

/-- A settled cell is still live, with the same code and names. -/
theorem Settled.live {now : CellStatus} {e : Option CellError} {outputs : Table String Binding}
    (h : Settled k k₁ c now e outputs) (hc : k.graph.cell? c.id = some c) :
    k₁.graph.cell? c.id = some { c with status := now } := by
  obtain ⟨d, hd, hshape⟩ := Graph.cell?_congr h.shape.symm hc
  have hstatus := h.status c.id
  rw [if_pos rfl, Graph.status?_of_cell? hd, Option.some.injEq] at hstatus
  obtain ⟨hid, hcode, hdefs, hrefs, hindex⟩ := Cell.shape_eq_iff.1 hshape
  rw [hd]
  cases d
  simp_all

/-- A cell that is running with nothing bound succeeds: its outputs are bound. -/
theorem succeed_settled {s : Session κ σ} (hc : k.graph.cell? c.id = some c)
    (output : CellOutput) (cached : Bool) :
    Settled k
      (({ k.begun c with session := s }.bindOutputs c output).succeed c output cached)
      c .idle none output.bindings := by
  have h := (begun_settled hc).withSession s
  obtain ⟨names, elements, heq, hget⟩ := bindOutputs_eq { k.begun c with session := s } c output
  rw [heq]
  refine ⟨⟨?_, h.config, h.parked, h.turns, h.pending, h.forced⟩, fun id => ?_, h.errors,
    fun name => ?_⟩
  · exact (Graph.shape_setStatus ..).trans h.shape
  · refine (status?_setStatus_of_live (h.live hc) .idle id).trans ?_
    rw [h.status]
    split <;> rfl
  · refine (hget name).trans ?_
    rw [h.names]
    split <;> simp

theorem serve?_eq (k : Kernel κ σ) (c : Cell) (forced : Bool) (strategy : Option Strategy) :
    ∃ cache, (k.serve? c forced strategy).2 =
      { k with session := { k.session with cache } } := by
  unfold serve? cachedOutput
  split
  · split
    · exact ⟨k.session.cache, rfl⟩
    · exact ⟨_, rfl⟩
  · exact ⟨k.session.cache, rfl⟩

variable [HashFunction]

/-- A cell is served from the cache if it can be, and executed otherwise. -/
theorem runLive_eq (k : Kernel κ σ) (x : Executor κ σ) (c : Cell) (forced : Bool) :
    k.runLive x c forced =
      match (k.begun c).serve? c forced ((k.begun c).identityOf? c) with
      | (some output, k₁) => (.cached, (k₁.bindOutputs c output).succeed c output true)
      | (none, k₁) => k₁.execute x c (k.requestOf c) ((k.begun c).identityOf? c) := rfl

theorem keepResult_eq (k : Kernel κ σ) (id : CellId) (strategy : Option Strategy)
    (frame : Option Frame) (output : CellOutput) :
    ∃ cache, k.keepResult id strategy frame output =
      { k with session := { k.session with cache } } := by
  unfold keepResult
  split
  · split
    · exact ⟨_, rfl⟩
    · exact ⟨k.session.cache, rfl⟩
  · exact ⟨k.session.cache, rfl⟩

/-- A cell that is run ends idle with its outputs bound, or in error without any. -/
theorem runLive_settled (x : Executor κ σ) (forced : Bool) (hc : k.graph.cell? c.id = some c) :
    (∃ output : CellOutput, (k.runLive x c forced).1 ≠ .failed ∧
      Settled k (k.runLive x c forced).2 c .idle none output.bindings) ∨
    (∃ text, (k.runLive x c forced).1 = .failed ∧
      Settled k (k.runLive x c forced).2 c .error (some (.exception text)) .empty) := by
  rw [runLive_eq]
  obtain ⟨cache, hserve⟩ := serve?_eq (k.begun c) c forced ((k.begun c).identityOf? c)
  generalize (k.begun c).serve? c forced ((k.begun c).identityOf? c) = served at hserve ⊢
  obtain ⟨found, k₁⟩ := served
  subst hserve
  cases found with
  | some output => exact .inl ⟨output, by simp, succeed_settled hc output true⟩
  | none =>
    dsimp only [execute]
    generalize hrun : perform _ _ _ = performed
    obtain ⟨result, frame, k₂⟩ := performed
    -- a program moves the session only
    have hk₂ : ∃ s, k₂ = { k.begun c with session := s } := by
      have := congrArg (fun p => p.2.2) hrun
      exact ⟨_, this.symm⟩
    obtain ⟨s, rfl⟩ := hk₂
    cases result with
    | ok output =>
      refine .inl ⟨output, by simp, ?_⟩
      obtain ⟨cache', hkeep⟩ := keepResult_eq
        ({ k.begun c with session := s }.bindOutputs c output) c.id ((k.begun c).identityOf? c)
        frame output
      dsimp only
      rw [hkeep]
      exact (succeed_settled hc output false).withSession _
    | error text =>
      have hbegun := (begun_settled hc).withSession s
      exact .inr ⟨text, rfl, hbegun.again (failCell_settled (hbegun.live hc) rfl _ _)⟩

end Kernel

/-! ## §5. Requests to stop. -/

namespace Session

variable {κ σ : Type}

theorem aborted_inFrame {α : Type} (s : Session κ σ) (f : Frame → Except Error α × Session κ σ)
    (h : s.aborted = true) (hf : ∀ frame, (f frame).2.aborted = true) :
    (s.inFrame f).2.aborted = true := by
  unfold inFrame
  split
  · exact hf _
  · exact h

theorem aborted_withFrame (s : Session κ σ) (f : Frame → Frame) :
    (s.withFrame f).aborted = s.aborted := by
  unfold withFrame
  split <;> rfl

variable [HashFunction]

/-- No call takes a request to stop back. -/
theorem aborted_answer (s : Session κ σ) (call : Call κ σ) (h : s.aborted = true) :
    (s.answer call).2.aborted = true := by
  cases call with
  | recordEffect text =>
    refine aborted_inFrame s _ h fun _ => ?_
    exact (aborted_withFrame s _).trans h
  | createElement place kind value =>
    refine aborted_inFrame s _ h fun frame => ?_
    cases frame.kind with
    | callback => exact h
    | run =>
      dsimp only
      split <;> exact (aborted_withFrame s _).trans h
  | createState initial =>
    refine aborted_inFrame s _ h fun _ => ?_
    exact (aborted_withFrame _ _).trans h
  | writeState id value =>
    unfold answer writeState
    dsimp only
    split <;> exact (aborted_withFrame _ _).trans h
  | bindModel model =>
    refine aborted_inFrame s _ h fun _ => ?_
    exact (aborted_withFrame _ _).trans h
  | observeModel model observer =>
    refine aborted_inFrame s _ h fun _ => ?_
    exact (aborted_withFrame _ _).trans h
  | watch path kind =>
    refine aborted_inFrame s _ h fun _ => ?_
    exact (aborted_withFrame _ _).trans h
  | writeText handle text =>
    unfold answer writeText
    dsimp only
    split <;> exact h
  | abort => rfl
  | _ => exact h

theorem aborted_run {α : Type} (s : Session κ σ) (p : Program κ σ α) (h : s.aborted = true) :
    (s.run p).2.aborted = true := by
  induction p generalizing s with
  | done a => exact h
  | ask call next ih => exact ih _ _ (aborted_answer s call h)

end Session

namespace Kernel

variable [HashFunction] {κ σ : Type} {k : Kernel κ σ} {c : Cell}

theorem aborted_perform {α : Type} (id : CellId) (p : Program κ σ α)
    (h : k.session.aborted = true) : (k.perform id p).2.2.session.aborted = true := by
  have hrun := Session.aborted_run (k.session.enter id .run) p h
  unfold perform
  dsimp only
  generalize (k.session.enter id .run).run p = ran at hrun ⊢
  obtain ⟨result, s⟩ := ran
  -- closing the frame of the program leaves the request to stop where it is
  obtain ⟨frames, elements, models, states, watches, nextWatch, cache, disk, inbox, aborted, own⟩ :=
    s
  cases frames with
  | nil => exact hrun
  | cons frame outer => exact hrun

theorem aborted_runLive (x : Executor κ σ) (forced : Bool) (h : k.session.aborted = true) :
    (k.runLive x c forced).2.session.aborted = true := by
  have hbegun : (k.begun c).session.aborted = true := by
    unfold begun
    simp only [unbindAll_eq]
    exact h
  rw [runLive_eq]
  obtain ⟨cache, hserve⟩ := serve?_eq (k.begun c) c forced ((k.begun c).identityOf? c)
  generalize (k.begun c).serve? c forced ((k.begun c).identityOf? c) = served at hserve ⊢
  obtain ⟨found, k₁⟩ := served
  subst hserve
  cases found with
  | some output =>
    obtain ⟨names, elements, heq, -⟩ := bindOutputs_eq
      { k.begun c with session := { (k.begun c).session with cache } } c output
    dsimp only
    rw [heq]
    exact hbegun
  | none =>
    have hrun := aborted_perform (k := { k.begun c with session :=
      { (k.begun c).session with cache } }) c.id (x.execute (k.requestOf c)) hbegun
    dsimp only [execute]
    generalize perform _ c.id _ = performed at hrun ⊢
    obtain ⟨result, frame, k₂⟩ := performed
    cases result with
    | ok output =>
      obtain ⟨cache', hkeep⟩ := keepResult_eq (k₂.bindOutputs c output) c.id
        ((k.begun c).identityOf? c) frame output
      obtain ⟨names, elements, heq, -⟩ := bindOutputs_eq k₂ c output
      dsimp only
      rw [hkeep, heq]
      exact hrun
    | error text =>
      obtain ⟨elements, heq⟩ := failCell_session k₂ c.id .error (.exception text)
      dsimp only
      rw [heq]
      exact hrun

end Kernel

end Notebook
