/-
  Notebook.Proofs.Kernel.Ownership — which models a cell has after a run.

  A run binds models to its cell as its program asks for it, and when the program is over the kernel
  drops the models of the cell that were not bound again.  What a run binds is read off its program,
  call by call (`Session.modelsBound`), and not off the frame that the kernel looks at; that both
  are the same is a theorem.  A run that is served from the cache runs no program, and it drops
  nothing either.

  Main results:
    * `Session.binds_run` — a program binds what it asks for to its own cell, and nothing else,
    * `Kernel.runLive_rebinds` — a run gives its cell just these models, or it is served,
    * `Kernel.runCell_follows_iff` — when the models of a cell are those that its run has bound,
    * `Kernel.served_keeps_gadget` — a run that leaves a model with the cell.
-/
import Notebook.Proofs.Identity.Content
import Notebook.Proofs.Kernel.Bookkeeping
import Notebook.Proofs.Kernel.History
import Notebook.Proofs.Session.Frames

namespace Notebook

/-! ## §1. The models that a program binds. -/

/-- The model that a call binds, if it binds one. -/
def Call.model? {κ σ : Type} : Call κ σ → Option ModelId
  | .bindModel model => some model
  | _ => none

namespace Session

variable {κ σ : Type} {s s' : Session κ σ} {f : Frame} {outer : List Frame}
  {ms ms' : List ModelId}

/-- From the one session to the other, the activity with the frame `f` has bound the models `ms` to
its cell, and it knows of them.  The other models, and the activities around it, are as they were. -/
structure Binds (f : Frame) (outer : List Frame) (ms : List ModelId) (s s' : Session κ σ) :
    Prop where
  frames : ∃ f', s'.frames = f' :: outer ∧ f'.cell = f.cell ∧
    ∀ m, m ∈ f'.boundModels ↔ m ∈ ms ∨ m ∈ f.boundModels
  cell? : ∀ m, s'.models.cell? m = if m ∈ ms then some f.cell else s.models.cell? m

/-- One thing after another: the first models were bound, and then the others. -/
theorem Binds.trans {s'' : Session κ σ} (h : Binds f outer ms s s')
    (h' : ∀ f', s'.frames = f' :: outer → Binds f' outer ms' s' s'') :
    Binds f outer (ms ++ ms') s s'' := by
  obtain ⟨f₁, hs₁, hf₁, hin₁⟩ := h.frames
  obtain ⟨f₂, hs₂, hf₂, hin₂⟩ := (h' f₁ hs₁).frames
  refine ⟨⟨f₂, hs₂, hf₂.trans hf₁, fun m => ?_⟩, fun m => ?_⟩
  · rw [hin₂, hin₁, List.mem_append]
    tauto
  · rw [(h' f₁ hs₁).cell?, h.cell?, hf₁]
    by_cases hm : m ∈ ms <;> simp [hm]

/-- Binding a model is an effect, and no other call has it. -/
theorem bindModel_mem_effect? (s : Session κ σ) (call : Call κ σ) (m : ModelId) :
    .bindModel m ∈ (s.effect? call).toList ↔ m ∈ call.model?.toList := by
  cases call with
  | createElement place kind value =>
    unfold effect?
    cases s.frames with
    | nil => simp [Call.model?]
    | cons f outer => cases hkind : f.kind <;> simp [Call.model?, hkind]
  | _ => simp [effect?, Call.model?]

variable [HashFunction]

/-- The models that a program binds when it runs now, on behalf of a cell. -/
def modelsBound {α : Type} (s : Session κ σ) : Program κ σ α → List ModelId
  | .done _ => []
  | .ask call next => call.model?.toList ++ (s.answer call).2.modelsBound (next (s.answer call).1)

/-- A call binds its model to the cell on whose behalf it is made, if it has one. -/
theorem cell?_answer (hs : s.frames = f :: outer) (call : Call κ σ) (m : ModelId) :
    (s.answer call).2.models.cell? m =
      if m ∈ call.model?.toList then some f.cell else s.models.cell? m := by
  have hframe : ∀ {α : Type} (g : Frame → Except Error α × Session κ σ),
      s.inFrame g = g f := inFrame_of_frames hs
  have hmodels : ∀ (s : Session κ σ) (g : Frame → Frame), (s.withFrame g).models = s.models := by
    intro s g
    unfold withFrame
    split <;> rfl
  cases call with
  | bindModel model =>
    show (s.bindModel model).2.models.cell? m = _
    unfold bindModel
    rw [hframe]
    dsimp only
    rw [hmodels, ModelTable.cell?_bind]
    simp [Call.model?]
  | recordEffect text =>
    show (s.inFrame _).2.models.cell? m = _
    rw [hframe]
    exact congrArg (ModelTable.cell? · m) (hmodels s _)
  | createElement place kind value =>
    show (s.createElement place kind value).2.models.cell? m = _
    unfold createElement
    rw [hframe]
    cases f.kind with
    | callback => rfl
    | run =>
      dsimp only
      split <;> exact congrArg (ModelTable.cell? · m) (hmodels s _)
  | createState initial =>
    show (s.createState initial).2.models.cell? m = _
    unfold createState
    rw [hframe]
    exact congrArg (ModelTable.cell? · m) (hmodels _ _)
  | writeState id value =>
    show (s.writeState id value).2.models.cell? m = _
    unfold writeState
    split <;> exact congrArg (ModelTable.cell? · m) (hmodels _ _)
  | observeModel model observer =>
    show (s.observeModel model observer).2.models.cell? m = _
    unfold observeModel
    rw [hframe]
    exact (congrArg (ModelTable.cell? · m) (hmodels _ _)).trans (ModelTable.cell?_observe ..)
  | linkModel child parent => exact ModelTable.cell?_link ..
  | watch path kind =>
    show (s.watch path kind).2.models.cell? m = _
    unfold watch
    rw [hframe]
    exact congrArg (ModelTable.cell? · m) (hmodels _ _)
  | writeText handle text =>
    show (s.writeText handle text).2.models.cell? m = _
    unfold writeText
    split <;> rfl
  | _ => rfl

/-- A call binds its model, if it has one, and the frame on top knows of it. -/
theorem binds_answer (hs : s.frames = f :: outer) (call : Call κ σ) :
    Binds f outer call.model?.toList s (s.answer call).2 := by
  obtain ⟨f', hs', hf'⟩ := answer_tookDown hs call
  refine ⟨⟨f', hs', hf'.cell, fun m => ?_⟩, cell?_answer hs call⟩
  rw [hf'.bound, bindModel_mem_effect?]

/-- **A program binds the models that it asks for to the cell that it runs for, and no others.** -/
theorem binds_run {α : Type} (hs : s.frames = f :: outer) (p : Program κ σ α) :
    Binds f outer (s.modelsBound p) s (s.run p).2 := by
  induction p generalizing s f with
  | done a => exact ⟨⟨f, hs, rfl, by simp [modelsBound]⟩, fun m => by simp [modelsBound, run]⟩
  | ask call next ih => exact (binds_answer hs call).trans fun f' hs' => ih _ hs'

/-- Nobody is told about a model that has no owner. -/
theorem dispatch_of_unowned {m : ModelId} (h : s.models.owner? m = none) (x : Executor κ σ)
    (patch : Json) : s.dispatch x m patch = .error (.modelNotFound m.text) := by
  unfold dispatch ModelTable.dispatch
  rw [h]

end Session

namespace Kernel

variable [HashFunction] {κ σ : Type} {k : Kernel κ σ} {x : Executor κ σ} {c : Cell}

/-! ## §2. The cell of every model after a run. -/

/-- The models that a cell binds if it is run now; none when it is served from the cache. -/
def modelsBound (k : Kernel κ σ) (x : Executor κ σ) (c : Cell) (forced : Bool) : List ModelId :=
  match (k.begun c).serve? c forced ((k.begun c).identityOf? c) with
  | (some _, _) => []
  | (none, k₁) => (k₁.session.enter c.id .run).modelsBound (x.execute (k.requestOf c))

omit [HashFunction] in
/-- From the one kernel to the other, the cell was given the models `ms` and lost those that it had
besides.  The models of other cells are as they were, unless they are among `ms`. -/
def Rebinds (id : CellId) (ms : List ModelId) (k k' : Kernel κ σ) : Prop :=
  ∀ m, k'.session.models.cell? m =
    if m ∈ ms then some id
    else if k.session.models.cell? m = some id then none
    else k.session.models.cell? m

/-- When a program is over, its cell has the models that the program has bound, and no others. -/
theorem perform_rebinds {α : Type} (k : Kernel κ σ) (id : CellId) (p : Program κ σ α) :
    Rebinds id ((k.session.enter id .run).modelsBound p) k (k.perform id p).2.2 := by
  intro m
  have hbinds : Session.Binds ⟨id, .run, 0, [], []⟩ k.session.frames _ (k.session.enter id .run) _ :=
    Session.binds_run rfl p
  obtain ⟨f', hframes, -, hbound⟩ := hbinds.frames
  have hmodels := hbinds.cell?
  unfold perform
  dsimp only
  generalize (k.session.enter id .run).run p = ran at hframes hmodels ⊢
  obtain ⟨result, s⟩ := ran
  -- the frame on top is still that of the cell, so its models are what is kept
  have hleave : s.leave = (some f', { s with frames := k.session.frames }) := by
    unfold Session.leave
    rw [hframes]
  rw [hleave]
  show (s.models.retain id f'.boundModels).2.cell? m = _
  rw [ModelTable.cell?_retain, hmodels]
  simp only [hbound, List.not_mem_nil, or_false]
  by_cases hm : m ∈ (k.session.enter id .run).modelsBound p
  · simp [hm]
  · simp only [hm, if_false, not_false_eq_true, and_true]
    rfl

omit [HashFunction] in
theorem cell?_begun (k : Kernel κ σ) (c : Cell) (m : ModelId) :
    (k.begun c).session.models.cell? m = k.session.models.cell? m := by
  unfold begun
  simp only [unbindAll_eq]
  exact ModelTable.cell?_clearObserversOf ..

/-- Whether it succeeds or not: what comes after the program concerns names, elements and the
cache. -/
theorem execute_rebinds (k : Kernel κ σ) (x : Executor κ σ) (c : Cell) (q : Request)
    (strategy : Option Strategy) :
    Rebinds c.id ((k.session.enter c.id .run).modelsBound (x.execute q)) k
      (k.execute x c q strategy).2 := by
  intro m
  rw [← perform_rebinds k c.id (x.execute q) m]
  unfold execute
  generalize k.perform c.id (x.execute q) = performed
  obtain ⟨result, frame, k₁⟩ := performed
  cases result with
  | ok output =>
    obtain ⟨cache, hkeep⟩ := keepResult_eq (k₁.bindOutputs c output) c.id strategy frame output
    obtain ⟨names, elements, heq, -⟩ := bindOutputs_eq k₁ c output
    dsimp only
    rw [hkeep, heq]
    rfl
  | error text =>
    obtain ⟨elements, heq⟩ := failCell_session k₁ c.id .error (.exception text)
    dsimp only
    rw [heq]

theorem execute_not_cached (k : Kernel κ σ) (x : Executor κ σ) (c : Cell) (q : Request)
    (strategy : Option Strategy) : (k.execute x c q strategy).1 ≠ .cached := by
  unfold execute
  generalize k.perform c.id (x.execute q) = performed
  obtain ⟨result, frame, k₁⟩ := performed
  cases result <;> simp

/-- A run is served from the cache and leaves every model where it is, or it gives its cell the
models that it binds and takes the others away from it. -/
theorem runLive_rebinds (k : Kernel κ σ) (x : Executor κ σ) (c : Cell) (forced : Bool) :
    ((k.runLive x c forced).1 = .cached ∧ k.modelsBound x c forced = [] ∧
      ∀ m, (k.runLive x c forced).2.session.models.cell? m = k.session.models.cell? m) ∨
    ((k.runLive x c forced).1 ≠ .cached ∧
      Rebinds c.id (k.modelsBound x c forced) k (k.runLive x c forced).2) := by
  rw [runLive_eq]
  unfold modelsBound
  obtain ⟨cache, hserve⟩ := serve?_eq (k.begun c) c forced ((k.begun c).identityOf? c)
  generalize (k.begun c).serve? c forced ((k.begun c).identityOf? c) = served at hserve ⊢
  obtain ⟨found, k₁⟩ := served
  have hk₁ : ∀ m, k₁.session.models.cell? m = k.session.models.cell? m := by
    obtain rfl : k₁ = _ := hserve
    exact cell?_begun k c
  cases found with
  | some output =>
    obtain ⟨names, elements, heq, -⟩ := bindOutputs_eq k₁ c output
    refine .inl ⟨rfl, rfl, fun m => ?_⟩
    dsimp only
    rw [heq]
    exact hk₁ m
  | none =>
    refine .inr ⟨execute_not_cached k₁ x c _ _, fun m => ?_⟩
    rw [← hk₁ m]
    exact execute_rebinds k₁ x c _ _ m

/-! ## §3. Models follow the latest run. -/

/-- The models `ms`, and no others, are bound directly to the cell.  If there are none, then it owns
no model at all, and a model that is updated has another owner or is not found. -/
structure HoldsJust (k : Kernel κ σ) (x : Executor κ σ) (id : CellId) (ms : List ModelId) :
    Prop where
  models : ∀ m, m ∈ k.session.models.modelsOf id ↔ m ∈ ms
  unowned : ms = [] → ∀ m, k.session.models.owner? m ≠ some id
  notFound : ms = [] → ∀ m patch, k.updateModel x m patch = .error (.modelNotFound m.text) ∨
    ∃ other, other ≠ id ∧ k.session.models.owner? m = some other

/-- Whom updates reach is settled by the models that are bound directly. -/
theorem holdsJust_iff {id : CellId} {ms : List ModelId} :
    HoldsJust k x id ms ↔ ∀ m, k.session.models.cell? m = some id ↔ m ∈ ms := by
  simp only [← ModelTable.mem_modelsOf]
  refine ⟨HoldsJust.models, fun h => ?_⟩
  have hunowned : ms = [] → ∀ m, k.session.models.owner? m ≠ some id := by
    rintro rfl m howner
    obtain ⟨n, hn⟩ := ModelTable.exists_cell?_of_owner? howner
    exact List.not_mem_nil ((h n).1 (ModelTable.mem_modelsOf.2 hn))
  refine ⟨h, hunowned, fun hnone m patch => ?_⟩
  cases howner : k.session.models.owner? m with
  | none =>
    refine .inl ?_
    unfold updateModel
    rw [Session.dispatch_of_unowned howner]
    rfl
  | some other =>
    refine .inr ⟨other, ?_, rfl⟩
    rintro rfl
    exact hunowned hnone m howner

/-- **After a run, a cell has just the models that the run has bound, unless the run was served from
the cache and the cell had models before.**  This is so for every live cell of every kernel,
whatever its program does and whether it succeeds. -/
theorem runCell_follows_iff (x : Executor κ σ) (forced : Bool) (hc : k.graph.cell? c.id = some c) :
    HoldsJust (k.runCell x c.id forced).2 x c.id (k.modelsBound x c forced) ↔
      ((k.runCell x c.id forced).1 = .cached → k.session.models.modelsOf c.id = []) := by
  rw [runCell_live x forced hc, holdsJust_iff, ModelTable.modelsOf_eq_nil_iff]
  -- a run that is served binds nothing, so nothing may have been there before
  rcases runLive_rebinds k x c forced with ⟨hcached, hnone, hcell⟩ | ⟨hran, hrebinds⟩
  · simp [hcached, hnone, hcell]
  · simp only [hran, false_imp_iff, iff_true]
    intro m
    rw [hrebinds m]
    by_cases hm : m ∈ k.modelsBound x c forced
    · simp [hm]
    · by_cases hbefore : k.session.models.cell? m = some c.id <;> simp [hm, hbefore]

end Kernel

/-! ## §4. A gadget. -/

/-- Makes a gadget when the code says so, and gives `y` in any case. -/
def Executor.gadgeteer : Executor Unit Unit where
  execute q :=
    if q.code = "gadget" then
      .ask (.bindModel ⟨"m"⟩) fun _ => .done (.ok { bindings := .ofList [("y", .value (.bool true))] })
    else .done (.ok { bindings := .ofList [("y", .value (.bool false))] })
  observe _ _ := .done (.ok ())

namespace Kernel

/-- Puts a cell with the given code in place. -/
def recode (code : String) : Command Unit Unit :=
  .apply (.register [⟨⟨0⟩, code, .ofList ["y"], .empty⟩])

set_option maxRecDepth 20000 in
/-- A run with code that was not run before takes the gadget of the run before it away. -/
theorem revised_drops_gadget :
    let _ := HashFunction.spelled
    ∃ k c, (blank true).commandAll? .gadgeteer
        [recode "gadget", .runUntilIdle 2, recode "plain"] = some k ∧
      k.graph.cell? c.id = some c ∧ k.session.models.modelsOf c.id = [⟨"m"⟩] ∧
      HoldsJust (k.runCell .gadgeteer c.id false).2 .gadgeteer c.id [] := by
  intro _
  have hend : ((blank true).commandAll? .gadgeteer
      [recode "gadget", .runUntilIdle 2, recode "plain"]).map (fun k =>
        (k.graph.cell? ⟨0⟩).map fun c => (k.session.models.modelsOf c.id,
          k.modelsBound .gadgeteer c false, (k.runCell .gadgeteer c.id false).1)) =
      some (some ([⟨"m"⟩], [], .executed)) := by cbv
  obtain ⟨k, hrun, hk⟩ := Option.map_eq_some_iff.1 hend
  obtain ⟨c, hc, hseen⟩ := Option.map_eq_some_iff.1 hk
  obtain ⟨hbefore, hbound, houtcome⟩ : _ = _ ∧ _ = _ ∧ _ = _ := by simpa using hseen
  rw [← Graph.cell?_id hc] at hc
  refine ⟨k, c, hrun, hc, hbefore, ?_⟩
  rw [← hbound]
  exact (runCell_follows_iff .gadgeteer false hc).2 (by simp [houtcome])

set_option maxRecDepth 20000 in
/-- If the code was run before, then the run is served from the cache, and the cell keeps the gadget:
it can still be updated. -/
theorem served_keeps_gadget :
    let _ := HashFunction.spelled
    ∃ k report k', (blank true).commandAll? .gadgeteer [recode "plain", .runUntilIdle 2,
        recode "gadget", .runUntilIdle 2, recode "plain"] = some k ∧ Reachable .gadgeteer k ∧
      k.runUntilIdle? .gadgeteer 2 = some (report, k') ∧ report = { cached := [⟨0⟩] } ∧
      k'.session.models.modelsOf ⟨0⟩ = [⟨"m"⟩] ∧
      (k'.updateModel .gadgeteer ⟨"m"⟩ .null).isOk = true ∧
      ¬ HoldsJust k' .gadgeteer ⟨0⟩ [] := by
  intro _
  have hend : ((blank true).commandAll? .gadgeteer [recode "plain", .runUntilIdle 2,
      recode "gadget", .runUntilIdle 2, recode "plain"]).map (fun k =>
        (k.runUntilIdle? .gadgeteer 2).map fun ran => (ran.1,
          ran.2.session.models.modelsOf ⟨0⟩,
          (ran.2.updateModel .gadgeteer ⟨"m"⟩ .null).isOk)) =
      some (some ({ cached := [⟨0⟩] }, [⟨"m"⟩], true)) := by cbv
  obtain ⟨k, hrun, hk⟩ := Option.map_eq_some_iff.1 hend
  obtain ⟨⟨report, k'⟩, hran, hseen⟩ := Option.map_eq_some_iff.1 hk
  obtain ⟨hreport, hmodels, hupdate⟩ : _ = _ ∧ _ = _ ∧ _ = _ := by simpa using hseen
  refine ⟨k, report, k', hrun, (Reachable.start (start_blank true)).commandAll? hrun, hran, hreport,
    hmodels, hupdate, fun h => ?_⟩
  have hin := (h.models ⟨"m"⟩).1 (by rw [hmodels]; exact List.mem_singleton_self _)
  exact List.not_mem_nil hin

end Kernel

end Notebook
