/-
  Notebook.Proofs.Kernel.Chronicle — what happens while cells run, in order.

  The kernel remembers of a write only that it is still to be scheduled, and of a run only how it
  ended.  Statements about what came after what need more: a chronicle, in which cells are scheduled
  and run and states are written.  It is read off the programs that run, call by call, and not off
  the queue of writes; that the queue gets just these writes is a theorem.

  Main results:
    * `RanAfter.append_iff` — "whenever that had happened, the cell ran" over a longer chronicle,
    * `Session.writes_run` / `Round.writes_visits` — the queue of writes grows by the writes of a
      program, and by those of all the cells that a round comes to,
    * `Round.ran_visits` — the cells that ran are those that the report has as executed or served,
    * `Kernel.has_pending_scheduleWrites` — the queue becomes pending cells, one reader at a time.
-/
import Notebook.Proofs.Kernel.Reachable

namespace Notebook

/-! ## §1. Chronicles. -/

/-- What can happen to cells and states. -/
inductive Happening where
  /-- A cell is to run, in the round that begins or in the next one. -/
  | scheduled (cell : CellId)
  /-- A cell begins a run that succeeds, or it is served from the cache. -/
  | ran (cell : CellId)
  | wrote (write : StateWrite)

namespace Happening

/-- The write, if it is one. -/
def write? : Happening → Option StateWrite
  | .wrote write => some write
  | _ => none

/-- The cell that ran, if one did. -/
def ran? : Happening → Option CellId
  | .ran cell => some cell
  | _ => none

/-- The cells that ran, in order. -/
def cellsRan (h : List Happening) : List CellId := h.filterMap ran?

theorem cellsRan_append (h l : List Happening) : cellsRan (h ++ l) = cellsRan h ++ cellsRan l :=
  List.filterMap_append

@[simp] theorem cellsRan_map_wrote (ws : List StateWrite) : cellsRan (ws.map .wrote) = [] := by
  unfold cellsRan
  rw [List.filterMap_map, List.filterMap_eq_nil_iff]
  exact fun _ _ => rfl

/-- The writes of a chronicle. -/
def writes (h : List Happening) : List StateWrite := h.filterMap write?

theorem writes_append (h l : List Happening) : writes (h ++ l) = writes h ++ writes l :=
  List.filterMap_append

@[simp] theorem writes_map_wrote (ws : List StateWrite) : writes (ws.map .wrote) = ws := by
  unfold writes
  rw [List.filterMap_map]
  exact List.filterMap_some

@[simp] theorem writes_map_scheduled (ids : List CellId) : writes (ids.map .scheduled) = [] := by
  unfold writes
  rw [List.filterMap_map, List.filterMap_eq_nil_iff]
  exact fun _ _ => rfl

theorem mem_writes {h : List Happening} {w : StateWrite} : w ∈ writes h ↔ .wrote w ∈ h := by
  unfold writes
  rw [List.mem_filterMap]
  constructor
  · rintro ⟨e, he, hw⟩
    cases e with
    | wrote write =>
      obtain rfl := Option.some.inj hw
      exact he
    | _ => cases hw
  · exact fun hin => ⟨_, hin, rfl⟩

end Happening

/-- Whenever something with the property `p` had happened, the cell ran afterwards. -/
def RanAfter (p : Happening → Prop) (id : CellId) (h : List Happening) : Prop :=
  ∀ earlier e later, h = earlier ++ e :: later → p e → .ran id ∈ later

namespace RanAfter

variable {p : Happening → Prop} {id : CellId} {h l : List Happening}

theorem of_none (hnone : ∀ e ∈ l, ¬ p e) : RanAfter p id l := by
  rintro earlier e later rfl he
  exact absurd he (hnone e (by simp))

/-- In two parts: what happened in the first one is answered there or in the second one. -/
theorem append_iff :
    RanAfter p id (h ++ l) ↔ (RanAfter p id h ∨ .ran id ∈ l) ∧ RanAfter p id l := by
  constructor
  · refine fun hall => ⟨?_, fun earlier e later heq he => ?_⟩
    · by_cases hran : .ran id ∈ l
      · exact .inr hran
      · refine .inl fun earlier e later heq he => ?_
        have hlater := hall earlier e (later ++ l) (by simp [heq]) he
        exact (List.mem_append.1 hlater).resolve_right hran
    · exact hall (h ++ earlier) e later (by simp [heq]) he
  · rintro ⟨hfirst, hsecond⟩ earlier e later heq he
    rcases List.append_eq_append_iff.1 heq with ⟨between, rfl, hl⟩ | ⟨between, hh, hl⟩
    · exact hsecond between e later hl he
    · -- it happened in the first part, or the second one begins with it
      cases between with
      | nil => exact hsecond [] e later hl.symm he
      | cons e' between =>
        obtain ⟨rfl, rfl⟩ := List.cons.inj hl
        refine List.mem_append.2 (hfirst.imp_left fun hfirst => ?_)
        exact hfirst earlier e between hh he

theorem append_of_none (hh : RanAfter p id h) (hnone : ∀ e ∈ l, ¬ p e) :
    RanAfter p id (h ++ l) := append_iff.2 ⟨.inl hh, of_none hnone⟩

end RanAfter

/-! ## §2. The writes of a program. -/

namespace Session

variable {κ σ : Type}

theorem states_withFrame (s : Session κ σ) (f : Frame → Frame) :
    (s.withFrame f).states = s.states := by
  unfold withFrame
  split <;> rfl

theorem writes_inFrame {α : Type} (s : Session κ σ) (f : Frame → Except Error α × Session κ σ)
    (hf : ∀ frame, (f frame).2.states.writes = s.states.writes) :
    (s.inFrame f).2.states.writes = s.states.writes := by
  unfold inFrame
  split
  · exact hf _
  · rfl

/-- The write that a call makes, if it makes one. -/
def write? (s : Session κ σ) : Call κ σ → Option StateWrite
  | .writeState id value => if (s.states.get? id).isSome then some ⟨id, value, s.origin⟩ else none
  | _ => none

theorem writes_writeState (s : Session κ σ) (id : StateId) (value : Json) :
    (s.writeState id value).2.states.writes =
      s.states.writes ++ (s.write? (.writeState id value)).toList := by
  unfold writeState write? StateStore.set StateStore.get?
  cases hslot : s.states.slots.get? id with
  | none =>
    show (s.record _).states.writes = _
    rw [record, states_withFrame]
    simp [hslot]
  | some slot =>
    show (Session.record _ _).states.writes = _
    rw [record, states_withFrame]
    simp [hslot]

variable [HashFunction]

/-- The writes of a program that runs now. -/
def writesOf {α : Type} (s : Session κ σ) : Program κ σ α → List StateWrite
  | .done _ => []
  | .ask call next => (s.write? call).toList ++ (s.answer call).2.writesOf (next (s.answer call).1)

/-- The writes of observers that are told a patch now. -/
def writesOfObservers (x : Executor κ σ) (patch : Json) :
    List κ → Session κ σ → List StateWrite
  | [], _ => []
  | observer :: rest, s =>
    s.writesOf (x.observe observer patch) ++
      writesOfObservers x patch rest (s.run (x.observe observer patch)).2

/-- A call adds its write to the queue. -/
theorem writes_answer (s : Session κ σ) (call : Call κ σ) :
    (s.answer call).2.states.writes = s.states.writes ++ (s.write? call).toList := by
  have hnone : s.states.writes = s.states.writes ++ (none : Option StateWrite).toList := by simp
  -- any other call may change the frame on top, the elements or the models, but not the queue
  cases call with
  | writeState id value => exact writes_writeState s id value
  | recordEffect text =>
    refine Eq.trans (writes_inFrame s _ fun _ => ?_) hnone
    exact congrArg StateStore.writes (states_withFrame s _)
  | createElement place kind value =>
    refine Eq.trans (writes_inFrame s _ fun frame => ?_) hnone
    cases frame.kind with
    | callback => rfl
    | run =>
      dsimp only
      split <;> exact congrArg StateStore.writes (states_withFrame s _)
  | createState initial =>
    refine Eq.trans (writes_inFrame s _ fun _ => ?_) hnone
    exact (congrArg StateStore.writes (states_withFrame _ _)).trans rfl
  | bindModel model =>
    refine Eq.trans (writes_inFrame s _ fun _ => ?_) hnone
    exact congrArg StateStore.writes (states_withFrame _ _)
  | observeModel model observer =>
    refine Eq.trans (writes_inFrame s _ fun _ => ?_) hnone
    exact congrArg StateStore.writes (states_withFrame _ _)
  | watch path kind =>
    refine Eq.trans (writes_inFrame s _ fun _ => ?_) hnone
    exact congrArg StateStore.writes (states_withFrame _ _)
  | writeText handle text =>
    refine Eq.trans ?_ hnone
    unfold answer writeText
    dsimp only
    split <;> rfl
  | _ => exact hnone

/-- A program adds its writes to the queue. -/
theorem writes_run {α : Type} (s : Session κ σ) (p : Program κ σ α) :
    (s.run p).2.states.writes = s.states.writes ++ s.writesOf p := by
  induction p generalizing s with
  | done a => simp [run, writesOf]
  | ask call next ih =>
    show ((s.answer call).2.run (next (s.answer call).1)).2.states.writes = _
    rw [ih, writes_answer, writesOf, List.append_assoc]

theorem writes_runObservers (x : Executor κ σ) (patch : Json) (observers : List κ)
    (s : Session κ σ) : (runObservers x patch observers s).states.writes =
      s.states.writes ++ writesOfObservers x patch observers s := by
  induction observers generalizing s with
  | nil => simp [runObservers, writesOfObservers]
  | cons observer rest ih =>
    rw [runObservers, ih, writes_run, writesOfObservers, List.append_assoc]

omit [HashFunction] in
theorem states_leave (s : Session κ σ) : s.leave.2.states = s.states := by
  unfold leave
  split <;> rfl

end Session

namespace Kernel

variable {κ σ : Type} {k k' : Kernel κ σ} {c : Cell} {id : CellId}

/-! ## §3. The readers of a write. -/

/-- Under some public name that it does not define itself, the cell reads the state. -/
def Reads (k : Kernel κ σ) (c : Cell) (s : StateId) : Prop :=
  ∃ name, k.names.get? name = some (.state s) ∧ k.graph.isPrivate name = false ∧
    c.refs.has name = true ∧ c.defs.has name = false

theorem mem_namesWhere (n : Namespace) (p : Binding → Bool) (name : String) :
    name ∈ n.namesWhere p ↔ ∃ b, n.get? name = some b ∧ p b = true := by
  unfold Namespace.namesWhere Namespace.get?
  rw [Table.mem_keys_iff, Table.get?_filter]
  cases n.bindings.get? name <;> simp

theorem has_readersWhere_state (hg : k.graph.WellFormed) (s : StateId) :
    (k.readersWhere (Binding.isState s)).has id = true ↔
      ∃ c, k.graph.cell? id = some c ∧ k.Reads c s := by
  have hstate : ∀ b, Binding.isState s b = true ↔ b = .state s := by
    intro b
    cases b <;> simp [Binding.isState]
  unfold readersWhere
  rw [Graph.has_readersOf hg]
  simp only [mem_namesWhere, hstate]
  constructor
  · rintro ⟨name, ⟨b, hb, rfl⟩, hpub, c, hc, href, hdef⟩
    exact ⟨c, hc, name, hb, hpub, href, hdef⟩
  · rintro ⟨c, hc, name, hb, hpub, href, hdef⟩
    exact ⟨name, ⟨_, hb, rfl⟩, hpub, c, hc, href, hdef⟩

/-- The cells that read a state which was written, except the cell that wrote it. -/
def readersOfWrites (k : Kernel κ σ) (writes : List StateWrite) : List CellId :=
  writes.flatMap fun w =>
    (k.readersWhere (Binding.isState w.state)).toList.filter fun id => w.origin != .cell id

theorem mem_readersOfWrites {writes : List StateWrite} : id ∈ k.readersOfWrites writes ↔
    ∃ w ∈ writes, (k.readersWhere (Binding.isState w.state)).has id = true ∧
      w.origin ≠ .cell id := by
  simp only [readersOfWrites, List.mem_flatMap, List.mem_filter, OrderedSet.mem_toList,
    bne_iff_ne]

theorem mem_readersOfWrites_iff (hg : k.graph.WellFormed) {writes : List StateWrite} :
    id ∈ k.readersOfWrites writes ↔ ∃ w ∈ writes, w.origin ≠ .cell id ∧
      ∃ c, k.graph.cell? id = some c ∧ k.Reads c w.state := by
  rw [mem_readersOfWrites]
  refine exists_congr fun w => and_congr_right fun _ => ?_
  rw [has_readersWhere_state hg, and_comm]

theorem readersOfWrites_congr (hgraph : k'.graph = k.graph) (hnames : k'.names = k.names)
    (writes : List StateWrite) : k'.readersOfWrites writes = k.readersOfWrites writes := by
  unfold readersOfWrites readersWhere
  rw [hgraph, hnames]

/-- Scheduling the queued writes makes their readers pending. -/
theorem has_pending_scheduleWrites (k : Kernel κ σ) : k.scheduleWrites.pending.has id = true ↔
    id ∈ k.readersOfWrites k.session.states.writes ∨ k.pending.has id = true := by
  -- on the writes; none of them changes who reads what
  have hfold : ∀ f : Kernel κ σ → StateWrite → Kernel κ σ,
      (∀ k₁ w, (∀ p, k₁.readersWhere p = k.readersWhere p) →
        (∀ p, (f k₁ w).readersWhere p = k.readersWhere p) ∧
          ((f k₁ w).pending.has id = true ↔
            id ∈ k.readersOfWrites [w] ∨ k₁.pending.has id = true)) →
      ∀ (writes : List StateWrite) (k₁ : Kernel κ σ),
        (∀ p, k₁.readersWhere p = k.readersWhere p) →
        ((writes.foldl f k₁).pending.has id = true ↔
          id ∈ k.readersOfWrites writes ∨ k₁.pending.has id = true) := by
    intro f hf writes
    induction writes with
    | nil => intro k₁ _; simp [readersOfWrites]
    | cons w rest ih =>
      intro k₁ hsame
      obtain ⟨hsame', hfirst⟩ := hf k₁ w hsame
      have hcons : id ∈ k.readersOfWrites (w :: rest) ↔
          id ∈ k.readersOfWrites [w] ∨ id ∈ k.readersOfWrites rest := by
        simp [mem_readersOfWrites]
      rw [List.foldl_cons, ih _ hsame', hfirst, hcons]
      exact or_left_comm.trans or_assoc.symm
  refine hfold _ ?_ k.session.states.writes _ fun _ => rfl
  intro k₁ w hsame
  refine ⟨hsame, ?_⟩
  simp only [schedule, OrderedSet.has_addAll, OrderedSet.mem_toList, hsame, mem_readersOfWrites,
    List.mem_singleton, exists_eq_left]
  cases w.origin with
  | cell writer =>
    simp only [OrderedSet.has_remove, ne_eq, Origin.cell.injEq]
    exact or_congr_left (and_comm.trans (and_congr_right fun _ => not_congr eq_comm))
  | external =>
    simp only [ne_eq, reduceCtorEq, not_false_eq_true, and_true]

/-! ## §4. The chronicle of a round. -/

variable [HashFunction] {x : Executor κ σ} {forced : OrderedSet CellId} {r : Round κ σ}

/-- The writes that a cell makes if it is run now; none when it is served from the cache. -/
def runWrites (k : Kernel κ σ) (x : Executor κ σ) (c : Cell) (forced : Bool) : List StateWrite :=
  match (k.begun c).serve? c forced ((k.begun c).identityOf? c) with
  | (some _, _) => []
  | (none, k₁) => (k₁.session.enter c.id .run).writesOf (x.execute (k.requestOf c))

namespace Round

/-- What happens when the round comes to a cell.  A run counts from its beginning, so that what it
writes comes after it. -/
def happenings (x : Executor κ σ) (forced : OrderedSet CellId) (r : Round κ σ) (id : CellId) :
    List Happening :=
  if r.kernel.session.aborted || (r.failedParent? id).isSome then [] else
  match r.kernel.graph.cell? id with
  | none => []
  | some c =>
    (if (r.kernel.runLive x c (forced.has id)).1 = .failed then [] else [.ran id]) ++
      (r.kernel.runWrites x c (forced.has id)).map .wrote

/-- What happens when the round comes to the given cells in turn. -/
def chronicle (x : Executor κ σ) (forced : OrderedSet CellId) :
    Round κ σ → List CellId → List Happening
  | _, [] => []
  | r, id :: rest => r.happenings x forced id ++ chronicle x forced (r.visit x forced id) rest

end Round

theorem writes_perform {α : Type} (k : Kernel κ σ) (id : CellId) (p : Program κ σ α) :
    (k.perform id p).2.2.session.states.writes =
      k.session.states.writes ++ (k.session.enter id .run).writesOf p := by
  have hrun := Session.writes_run (k.session.enter id .run) p
  unfold perform
  dsimp only
  generalize (k.session.enter id .run).run p = ran at hrun ⊢
  obtain ⟨result, s⟩ := ran
  -- taking the frame back, if there is one, leaves the states as the program left them
  obtain ⟨frames, elements, models, states, watches, nextWatch, cache, disk, inbox, aborted, own⟩ :=
    s
  cases frames with
  | nil => exact hrun
  | cons frame outer => exact hrun

/-- A run adds its writes to the queue, whether it succeeds or not. -/
theorem writes_runLive (k : Kernel κ σ) (x : Executor κ σ) (c : Cell) (forced : Bool) :
    (k.runLive x c forced).2.session.states.writes =
      k.session.states.writes ++ k.runWrites x c forced := by
  have hbegun : (k.begun c).session.states.writes = k.session.states.writes := by
    unfold begun
    simp only [unbindAll_eq]
    rfl
  rw [runLive_eq]
  unfold runWrites
  obtain ⟨cache, hserve⟩ := serve?_eq (k.begun c) c forced ((k.begun c).identityOf? c)
  generalize (k.begun c).serve? c forced ((k.begun c).identityOf? c) = served at hserve ⊢
  obtain ⟨found, k₁⟩ := served
  have hk₁ : k₁.session.states.writes = k.session.states.writes := by
    obtain rfl : k₁ = _ := hserve
    exact hbegun
  cases found with
  -- a cell that is served runs no program
  | some output =>
    obtain ⟨names, elements, heq, -⟩ := bindOutputs_eq k₁ c output
    dsimp only
    rw [heq, List.append_nil]
    exact hk₁
  -- otherwise all that comes after the program concerns names, elements and the cache
  | none =>
    have hrun := writes_perform k₁ c.id (x.execute (k.requestOf c))
    rw [hk₁] at hrun
    dsimp only [execute]
    generalize k₁.perform c.id _ = performed at hrun ⊢
    obtain ⟨result, frame, k₂⟩ := performed
    cases result with
    | ok output =>
      obtain ⟨cache', hkeep⟩ := keepResult_eq (k₂.bindOutputs c output) c.id
        ((k.begun c).identityOf? c) frame output
      obtain ⟨names, elements, heq, -⟩ := bindOutputs_eq k₂ c output
      dsimp only
      rw [hkeep, heq]
      exact hrun
    | error text =>
      obtain ⟨elements, heq⟩ := failCell_session k₂ c.id .error (.exception text)
      dsimp only
      rw [heq]
      exact hrun

namespace Round

/-- Coming to a cell that is passed over: nothing happens. -/
theorem happenings_of_passed (hpass : r.kernel.session.aborted = true ∨
    (r.failedParent? id).isSome = true) : r.happenings x forced id = [] := by
  unfold happenings
  rw [if_pos (by simpa using hpass)]

theorem happenings_of_run (hrun : r.kernel.session.aborted = false)
    (hfree : r.failedParent? c.id = none) (hc : r.kernel.graph.cell? c.id = some c) :
    r.happenings x forced c.id =
      (if (r.kernel.runLive x c (forced.has c.id)).1 = .failed then [] else [.ran c.id]) ++
        (r.kernel.runWrites x c (forced.has c.id)).map .wrote := by
  unfold happenings
  simp [hrun, hfree, hc]

theorem visit_of_run (hrun : r.kernel.session.aborted = false)
    (hfree : r.failedParent? c.id = none) (hc : r.kernel.graph.cell? c.id = some c) :
    (r.visit x forced c.id).kernel = (r.kernel.runLive x c (forced.has c.id)).2 := by
  unfold visit
  rw [if_neg (by simp [hrun]), hfree]
  dsimp only
  rw [runCell_live x (forced.has c.id) hc]
  generalize r.kernel.runLive x c (forced.has c.id) = ran
  obtain ⟨outcome, kernel⟩ := ran
  cases outcome <;> rfl

/-- Coming to a cell adds what it writes to the queue. -/
theorem writes_visit (x : Executor κ σ) (forced : OrderedSet CellId)
    (hc : r.kernel.graph.cell? c.id = some c) :
    (r.visit x forced c.id).kernel.session.states.writes =
      r.kernel.session.states.writes ++ Happening.writes (r.happenings x forced c.id) := by
  cases hrun : r.kernel.session.aborted with
  | true =>
    rw [happenings_of_passed (.inl hrun)]
    unfold visit
    rw [if_pos hrun]
    exact (List.append_nil _).symm
  | false =>
    cases hfree : r.failedParent? c.id with
    | some ancestor =>
      rw [happenings_of_passed (.inr (by simp [hfree]))]
      obtain ⟨elements, heq⟩ := failCell_session r.kernel c.id .stale (.ancestorFailed ancestor)
      unfold visit
      rw [if_neg (by simp [hrun]), hfree]
      show (r.kernel.failCell c.id .stale (.ancestorFailed ancestor)).session.states.writes = _
      rw [heq]
      exact (List.append_nil _).symm
    | none =>
      have hran : Happening.writes (if (r.kernel.runLive x c (forced.has c.id)).1 = .failed then []
          else [.ran c.id]) = [] := by
        split <;> rfl
      rw [visit_of_run hrun hfree hc, happenings_of_run hrun hfree hc, writes_runLive,
        Happening.writes_append, hran, Happening.writes_map_wrote, List.nil_append]

/-- The cells that ran are those that the report has as executed or served. -/
theorem ran_visit (x : Executor κ σ) (forced : OrderedSet CellId)
    (hc : r.kernel.graph.cell? c.id = some c) :
    ((r.visit x forced c.id).report.executed ++ (r.visit x forced c.id).report.cached).Perm
      (r.report.executed ++ r.report.cached ++
        Happening.cellsRan (r.happenings x forced c.id)) := by
  cases hrun : r.kernel.session.aborted with
  | true =>
    rw [happenings_of_passed (.inl hrun)]
    unfold visit
    rw [if_pos hrun]
    simp [skip, Happening.cellsRan]
  | false =>
    have hvisited := visit_cases x forced hc hrun
    generalize r.visit x forced c.id = r' at hvisited ⊢
    cases hvisited with
    | skipped hparent _ _ =>
      rw [happenings_of_passed (.inr (by simp [hparent]))]
      simp [Happening.cellsRan]
    | executed hfree hlive _ =>
      rw [happenings_of_run hrun hfree hc, hlive, Happening.cellsRan_append,
        Happening.cellsRan_map_wrote]
      refine List.perm_iff_count.2 fun a => ?_
      simp [Happening.cellsRan, Happening.ran?, List.count_cons]
    | cached hfree hlive _ =>
      rw [happenings_of_run hrun hfree hc, hlive, Happening.cellsRan_append,
        Happening.cellsRan_map_wrote]
      simp [Happening.cellsRan, Happening.ran?]
    | failed hfree hlive _ =>
      rw [happenings_of_run hrun hfree hc, hlive, Happening.cellsRan_append,
        Happening.cellsRan_map_wrote]
      simp [Happening.cellsRan]

/-- A cell that a round comes to, without being stopped, is settled; it is idle only when it
ran. -/
theorem visit_settled (x : Executor κ σ) (forced : OrderedSet CellId)
    (hc : r.kernel.graph.cell? c.id = some c) (hrun : r.kernel.session.aborted = false) :
    ∃ now e outputs, Settled r.kernel (r.visit x forced c.id).kernel c now e outputs ∧
      (now = .idle ∧ .ran c.id ∈ r.happenings x forced c.id ∨ now = .stale ∨ now = .error) := by
  have hvisited := visit_cases x forced hc hrun
  generalize r.visit x forced c.id = r' at hvisited ⊢
  cases hvisited with
  | skipped _ hsettled _ => exact ⟨_, _, _, hsettled, .inr (.inl rfl)⟩
  | executed hfree hlive hsettled =>
    refine ⟨_, _, _, hsettled, .inl ⟨rfl, ?_⟩⟩
    simp [happenings_of_run hrun hfree hc, hlive]
  | cached hfree hlive hsettled =>
    refine ⟨_, _, _, hsettled, .inl ⟨rfl, ?_⟩⟩
    simp [happenings_of_run hrun hfree hc, hlive]
  | failed _ _ hsettled => exact ⟨_, _, _, hsettled, .inr (.inr rfl)⟩

/-- Stopped or not, a cell that a round comes to is idle only when it ran, and it is stale or in
error otherwise. -/
theorem visit_fate (x : Executor κ σ) (forced : OrderedSet CellId)
    (hc : r.kernel.graph.cell? c.id = some c) :
    ∃ now, (now = .idle ∧ .ran c.id ∈ r.happenings x forced c.id ∨ now = .stale ∨ now = .error) ∧
      ∀ a, (r.visit x forced c.id).kernel.graph.status? a =
        if a = c.id then some now else r.kernel.graph.status? a := by
  cases hrun : r.kernel.session.aborted with
  | true =>
    have heq : (r.visit x forced c.id).kernel = r.kernel.setStatus c.id .stale := by
      unfold visit
      rw [if_pos hrun]
      rfl
    rw [heq]
    exact ⟨.stale, .inr (.inl rfl), status?_setStatus_of_live hc .stale⟩
  | false =>
    obtain ⟨now, e, outputs, hsettled, hnow⟩ := visit_settled x forced hc hrun
    exact ⟨now, hnow, hsettled.status⟩

/-- A round that comes to live cells adds to the queue what they write. -/
theorem writes_visits (x : Executor κ σ) (forced : OrderedSet CellId) (ids : List CellId)
    (hlive : ∀ id ∈ ids, r.kernel.graph.contains id = true) :
    (ids.foldl (visit x forced) r).kernel.session.states.writes =
      r.kernel.session.states.writes ++ Happening.writes (r.chronicle x forced ids) := by
  induction ids generalizing r with
  | nil => simp [chronicle, Happening.writes]
  | cons first rest ih =>
    obtain ⟨c, hc⟩ := Option.isSome_iff_exists.1 (hlive first (List.mem_cons_self ..))
    obtain rfl := Graph.cell?_id hc
    have hshape := (visit_status x forced hc).1.shape
    rw [List.foldl_cons, ih, writes_visit x forced hc, chronicle, Happening.writes_append,
      List.append_assoc]
    intro id hid
    rw [Graph.contains_congr hshape]
    exact hlive id (List.mem_cons_of_mem _ hid)

theorem ran_visits (x : Executor κ σ) (forced : OrderedSet CellId) (ids : List CellId)
    (hlive : ∀ id ∈ ids, r.kernel.graph.contains id = true) :
    ((ids.foldl (visit x forced) r).report.executed ++
      (ids.foldl (visit x forced) r).report.cached).Perm
      (r.report.executed ++ r.report.cached ++
        Happening.cellsRan (r.chronicle x forced ids)) := by
  induction ids generalizing r with
  | nil => simp [chronicle, Happening.cellsRan]
  | cons first rest ih =>
    obtain ⟨c, hc⟩ := Option.isSome_iff_exists.1 (hlive first (List.mem_cons_self ..))
    obtain rfl := Graph.cell?_id hc
    have hshape := (visit_status x forced hc).1.shape
    have hrest := ih (r := r.visit x forced c.id) fun id hid => by
      rw [Graph.contains_congr hshape]
      exact hlive id (List.mem_cons_of_mem _ hid)
    rw [List.foldl_cons, chronicle, Happening.cellsRan_append, ← List.append_assoc]
    exact hrest.trans ((ran_visit x forced hc).append_right _)

end Round

omit [HashFunction] in
/-- Nothing is written before the first cell is come to. -/
theorem writes_readied (k : Kernel κ σ) (roots : OrderedSet CellId) :
    (k.readied roots {}).kernel.session.states.writes = k.session.states.writes := by
  have hblock : ∀ (blocked : List (CellId × BlockReason)) (r : Round κ σ),
      (blocked.foldl (fun r b => r.block b.1 b.2) r).kernel.session.states.writes =
        r.kernel.session.states.writes := by
    intro blocked
    induction blocked with
    | nil => exact fun r => rfl
    | cons b rest ih =>
      intro r
      refine (ih _).trans ?_
      obtain ⟨id, reason⟩ := b
      cases reason with
      | inCycle cycle =>
        obtain ⟨elements, heq⟩ := failCell_session r.kernel id .error (.cycle cycle)
        exact (congrArg (fun s : Session κ σ => s.states.writes) heq).trans rfl
      | downstreamOf ancestor =>
        obtain ⟨elements, heq⟩ := failCell_session r.kernel id .stale (.ancestorBlocked ancestor)
        exact (congrArg (fun s : Session κ σ => s.states.writes) heq).trans rfl
  obtain ⟨published, heq⟩ := setStatusAll_eq
    ((k.graph.plan roots).blocked.foldl (fun r b => r.block b.1 b.2)
      ({ kernel := k, report := {} } : Round κ σ)).kernel .queued (k.graph.plan roots).order
  refine (congrArg (fun k : Kernel κ σ => k.session.states.writes) heq).trans ?_
  exact hblock (k.graph.plan roots).blocked { kernel := k, report := {} }

omit [HashFunction] in
/-- A cell that is blocked gives no outputs. -/
theorem blocked_failed {roots : OrderedSet CellId}
    (hid : id ∈ (k.graph.plan roots).blocked.map (·.1)) : id ∈ (k.readied roots {}).failed := by
  have hblock : ∀ (blocked : List (CellId × BlockReason)) (r : Round κ σ),
      id ∈ blocked.map (·.1) ∨ id ∈ r.failed →
      id ∈ (blocked.foldl (fun r b => r.block b.1 b.2) r).failed := by
    intro blocked
    induction blocked with
    | nil => exact fun r hin => hin.resolve_left List.not_mem_nil
    | cons b rest ih =>
      refine fun r hin => ih (r.block b.1 b.2) ?_
      simp only [List.map_cons, List.mem_cons, Round.block] at hin ⊢
      tauto
  exact hblock (k.graph.plan roots).blocked { kernel := k, report := {} } (.inl hid)

omit [HashFunction] in
/-- A cell that is idle when the first cell is come to is still to come, or it is outside of the
run-set and was idle before. -/
theorem readied_idle (hg : k.graph.WellFormed) {roots : OrderedSet CellId}
    (hidle : (k.readied roots {}).kernel.graph.status? id = some .idle) :
    id ∈ (k.graph.plan roots).order ∨
      id ∉ k.graph.descendants roots ∧ k.graph.status? id = some .idle := by
  have hbegin := underway_readied hg roots
  by_cases horder : id ∈ (k.graph.plan roots).order
  · exact .inl horder
  -- a blocked cell is stale or in error, so what is left is outside of the run-set
  have hblocked : id ∉ (k.graph.plan roots).blocked.map (·.1) := by
    intro hin
    rcases (hbegin.broken id (blocked_failed hin)).status with hs | hs <;> simp [hs] at hidle
  refine .inr ⟨?_, (hbegin.outside_status id hblocked horder).symm.trans hidle⟩
  rw [← (plan_perm hg roots).mem_iff]
  simp [hblocked, horder]

/-! ## §5. The chronicle of rounds and of events. -/

/-- What happens in a round that takes `told` and leaves the kernel `k'`: first the cells of its
run-set are scheduled, and in the end the readers of what was written. -/
def roundOf (k k' : Kernel κ σ) (roots : OrderedSet CellId) (told : List Happening) :
    List Happening :=
  (k.graph.descendants roots).map .scheduled ++ told ++
    (k'.readersOfWrites (Happening.writes told)).map .scheduled

/-- What happens in a round from the given cells. -/
def roundHappenings (k : Kernel κ σ) (x : Executor κ σ) (roots forced : OrderedSet CellId) :
    List Happening :=
  k.roundOf (k.runOnce x roots forced {}).2 roots
    ((k.readied roots {}).chronicle x forced (k.graph.plan roots).order)

/-- The writes that an event makes at once. -/
def eventWrites (k : Kernel κ σ) (x : Executor κ σ) : Event → List StateWrite
  | .updateModel model patch =>
    match k.session.models.dispatch model with
    | .ok (owner, observers) =>
      Session.writesOfObservers x patch observers (k.session.enter owner .callback)
    | .error _ => []
  | .setState state value => (k.session.write? (.writeState state value)).toList
  | _ => []

/-- What happens when events are applied in turn. -/
def eventHappenings (x : Executor κ σ) : Kernel κ σ → List Event → List Happening
  | _, [] => []
  | k, event :: rest =>
    (k.eventWrites x event).map .wrote ++ eventHappenings x (k.apply x event).2 rest

/-- What happens when the queued events are applied. -/
def drainHappenings (k : Kernel κ σ) (x : Executor κ σ) : List Happening :=
  eventHappenings x { k with session.inbox := [] } (Event.coalesce k.session.inbox)

/-- What happens while events and writes are applied and the pending cells run, round after round:
what `runRounds` does, told in order. -/
def roundsHappenings (x : Executor κ σ) : (rounds : Nat) → Kernel κ σ → List Happening
  | 0, _ => []
  | rounds + 1, k =>
    let ready := (k.drain x).2.scheduleWrites
    k.drainHappenings x ++
      if ready.pending.isEmpty then [] else
      let k' := (ready.clearPending.runOnce x ready.pending ready.forced {}).2
      ready.clearPending.roundHappenings x ready.pending ready.forced ++
        if k'.session.aborted then [] else roundsHappenings x rounds k'

/-- What happens while the kernel runs until nothing is pending. -/
def runHappenings (k : Kernel κ σ) (x : Executor κ σ) (rounds : Nat) : List Happening :=
  roundsHappenings x rounds { k with session.aborted := false }

end Kernel

/-! ## §6. A scribe. -/

/-- Creates a state and binds it to `s`, writes the first state, stops the run after having written
it, or does nothing, as the code says. -/
def Executor.scribe : Executor Unit Unit where
  execute q :=
    if q.code = "create" then
      .ask (.createState .null) fun
        | .ok id => .done (.ok { bindings := .ofList [("s", .state id)] })
        | .error e => .done (.error e.message)
    else if q.code = "write" then .ask (.writeState ⟨0⟩ (.bool true)) fun _ => .done (.ok {})
    else if q.code = "stop" then
      .ask (.writeState ⟨0⟩ (.bool true)) fun _ => .ask .abort fun _ => .done (.ok {})
    else .done (.ok {})
  observe _ _ := .done (.ok ())

end Notebook
