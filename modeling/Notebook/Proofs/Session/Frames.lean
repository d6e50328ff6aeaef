/-
  Notebook.Proofs.Session.Frames — what the frame of an activity tells about it.

  A frame takes down the effects of the calls that are made while it is on top, and an activity that
  leaves it without any is pure: nobody needs to know that it took place.  What is taken down is read
  off the program, call by call (`Session.effectsOf`), whether the calls succeed or fail.  Nesting a
  model in another one is the only call that changes what cells have set up and is not taken down.

  Main results:
    * `Session.leave_run` — the frame that an activity leaves, and the frames around it,
    * `Session.relinked_run` — without effects, models may be nested, and all else stays,
    * `Session.pure_untouched_iff` — when a pure activity has left no trace,
    * `Session.adoption_is_pure` — a pure activity that has left one.
-/
import Notebook.Digest.Sha256
import Notebook.Proofs.Model.Bindings
import Notebook.Session.Executor

namespace Notebook

/-! ## §1. Models that are nested. -/

namespace ModelTable

variable {κ : Type} {t : ModelTable κ} {m : ModelId} {links : List (ModelId × ModelId)}

/-- The model that a model is nested in. -/
def parent? (t : ModelTable κ) (m : ModelId) : Option ModelId :=
  (t.bindings.get? m).bind ModelBinding.parent

/-- Nests models, each pair being a model and the one that it is nested in. -/
def linkAll (t : ModelTable κ) (links : List (ModelId × ModelId)) : ModelTable κ :=
  links.foldl (fun t l => t.link l.1 l.2) t

/-- The models that are nested are nested there already: the last word on each of them names the
parent that it has. -/
def Nested (t : ModelTable κ) (links : List (ModelId × ModelId)) : Prop :=
  ∀ child parent, links.reverse.lookup child = some parent → t.parent? child = some parent

theorem get?_link (t : ModelTable κ) (child parent m : ModelId) :
    (t.link child parent).bindings.get? m =
      if m = child then some ⟨t.cell? m, some parent⟩ else t.bindings.get? m := by
  unfold link cell?
  rw [Table.get?_insert]
  split
  · rename_i h
    subst h
    cases t.bindings.get? m <;> rfl
  · rfl

theorem observers_linkAll (t : ModelTable κ) (links : List (ModelId × ModelId)) :
    (t.linkAll links).observers = t.observers := by
  induction links generalizing t with
  | nil => rfl
  | cons l rest ih => exact ih (t.link l.1 l.2)

/-- A model has the parent that was named last, and the cell that it had. -/
theorem get?_linkAll (t : ModelTable κ) (links : List (ModelId × ModelId)) (m : ModelId) :
    (t.linkAll links).bindings.get? m =
      match links.reverse.lookup m with
      | some parent => some ⟨t.cell? m, some parent⟩
      | none => t.bindings.get? m := by
  induction links generalizing t with
  | nil => rfl
  | cons l rest ih =>
    obtain ⟨child, parent⟩ := l
    show ((t.link child parent).linkAll rest).bindings.get? m = _
    rw [ih, List.reverse_cons, List.lookup_append, get?_link, cell?_link]
    cases rest.reverse.lookup m with
    | some later => rfl
    | none =>
      by_cases hm : m = child
      · simp [hm]
      · have hne : (m == child) = false := beq_false_of_ne hm
        simp [hm, hne]

/-- Nesting changes nothing just when the models are nested there already. -/
theorem linkAll_eq_iff : t.linkAll links = t ↔ t.Nested links := by
  constructor
  · intro heq child parent hlast
    have hget := get?_linkAll t links child
    rw [heq, hlast] at hget
    rw [parent?, hget]
    rfl
  · intro hnested
    have hbindings : (t.linkAll links).bindings = t.bindings := by
      refine Table.ext_get? fun m => ?_
      rw [get?_linkAll]
      cases hlast : links.reverse.lookup m with
      | none => rfl
      | some parent =>
        obtain ⟨b, hb, hparent⟩ := Option.bind_eq_some_iff.1 (hnested m parent hlast)
        show some (ModelBinding.mk (t.cell? m) (some parent)) = _
        rw [cell?, hb, Option.bind_some, ← hparent]
    have hobservers := observers_linkAll t links
    generalize t.linkAll links = t' at hbindings hobservers ⊢
    obtain ⟨bindings, observers⟩ := t'
    subst hbindings hobservers
    rfl

end ModelTable

/-! ## §2. The frame on top. -/

/-- What an activity took down from the frame `f` to the frame `f'`: the effects `es`, and the models
that were bound. -/
structure Frame.TookDown (es : List Effect) (f f' : Frame) : Prop where
  cell : f'.cell = f.cell
  kind : f'.kind = f.kind
  effects : f'.effects = f.effects ++ es
  bound : ∀ m, m ∈ f'.boundModels ↔ .bindModel m ∈ es ∨ m ∈ f.boundModels

namespace Frame.TookDown

variable {es es' : List Effect} {f f' f'' : Frame}

theorem refl (f : Frame) : TookDown [] f f := ⟨rfl, rfl, (List.append_nil _).symm, by simp⟩

theorem trans (h : TookDown es f f') (h' : TookDown es' f' f'') : TookDown (es ++ es') f f'' where
  cell := h'.cell.trans h.cell
  kind := h'.kind.trans h.kind
  effects := by rw [h'.effects, h.effects, List.append_assoc]
  bound := fun m => by
    rw [h'.bound, h.bound, List.mem_append]
    exact or_left_comm.trans or_assoc.symm

/-- An effect that binds no model. -/
theorem record (f : Frame) {e : Effect} (he : ∀ m, e ≠ .bindModel m) : TookDown [e] f (f.record e) :=
  ⟨rfl, rfl, rfl, fun m => by simp [Frame.record, (he m).symm]⟩

end Frame.TookDown

namespace Session

variable {κ σ : Type} {s s' : Session κ σ} {f : Frame} {outer : List Frame}

theorem inFrame_of_frames {α : Type} (hs : s.frames = f :: outer)
    (g : Frame → Except Error α × Session κ σ) : s.inFrame g = g f := by
  unfold inFrame
  rw [hs]

theorem withFrame_of_frames (hs : s.frames = f :: outer) (g : Frame → Frame) :
    s.withFrame g = { s with frames := g f :: outer } := by
  unfold withFrame
  rw [hs]

/-- The effect that a call is taken down as, if it is.  Whether the call succeeds does not matter. -/
def effect? (s : Session κ σ) : Call κ σ → Option Effect
  | .recordEffect text => some (.external text)
  | .createElement _ _ _ => s.frames.head?.bind fun frame =>
      match frame.kind with
      | .run => some (.createElement (ElementId.derive frame.cell frame.ordinal))
      | .callback => none
  | .createState _ => some (.createState ⟨s.states.nextId⟩)
  | .writeState id _ => some (.writeState id)
  | .bindModel model => some (.bindModel model)
  | .observeModel model _ => some (.observe model)
  | .watch _ _ => some (.watch ⟨s.nextWatch⟩)
  | _ => none

/-- An effect is recorded in the frame on top, whatever else has changed. -/
theorem record_tookDown (hs : s.frames = f :: outer) {e : Effect} (he : ∀ m, e ≠ .bindModel m) :
    ∃ f', (s.record e).frames = f' :: outer ∧ f.TookDown [e] f' := by
  refine ⟨f.record e, ?_, .record f he⟩
  rw [record, withFrame_of_frames hs]

variable [HashFunction]

/-- The effects of a program that runs now. -/
def effectsOf {α : Type} (s : Session κ σ) : Program κ σ α → List Effect
  | .done _ => []
  | .ask call next =>
    (s.effect? call).toList ++ (s.answer call).2.effectsOf (next (s.answer call).1)

/-- A call is taken down in the frame on top; the others are left alone. -/
theorem answer_tookDown (hs : s.frames = f :: outer) (call : Call κ σ) :
    ∃ f', (s.answer call).2.frames = f' :: outer ∧ f.TookDown (s.effect? call).toList f' := by
  have hframe : ∀ {α : Type} (g : Frame → Except Error α × Session κ σ),
      s.inFrame g = g f := inFrame_of_frames hs
  cases call with
  | recordEffect text =>
    show ∃ f', (s.inFrame _).2.frames = _ ∧ _
    rw [hframe]
    exact record_tookDown (by exact hs) (by simp)
  | createElement place kind value =>
    show ∃ f', (s.createElement place kind value).2.frames = _ ∧ _
    unfold createElement effect?
    rw [hframe, hs]
    dsimp only [List.head?_cons, Option.bind_some]
    cases f.kind with
    | callback => exact ⟨f, hs, .refl f⟩
    | run =>
      dsimp only
      rw [withFrame_of_frames hs]
      -- the effect counts even when the registry refuses the element
      split <;> exact ⟨_, rfl, rfl, rfl, rfl, by simp [Frame.record]⟩
  | createState initial =>
    show ∃ f', (s.createState initial).2.frames = _ ∧ _
    unfold createState
    rw [hframe]
    exact record_tookDown (by exact hs) (by simp)
  | writeState id value =>
    show ∃ f', (s.writeState id value).2.frames = _ ∧ _
    unfold writeState
    split <;> exact record_tookDown (by exact hs) (by simp)
  | bindModel model =>
    show ∃ f', (s.bindModel model).2.frames = _ ∧ _
    unfold bindModel
    rw [hframe]
    dsimp only
    rw [withFrame_of_frames (by exact hs)]
    exact ⟨_, rfl, rfl, rfl, rfl, by simp [Frame.record, effect?, eq_comm]⟩
  | observeModel model observer =>
    show ∃ f', (s.observeModel model observer).2.frames = _ ∧ _
    unfold observeModel
    rw [hframe]
    exact record_tookDown (by exact hs) (by simp)
  | watch path kind =>
    show ∃ f', (s.watch path kind).2.frames = _ ∧ _
    unfold watch
    rw [hframe]
    exact record_tookDown (by exact hs) (by simp)
  | writeText handle text =>
    show ∃ f', (s.writeText handle text).2.frames = _ ∧ _
    unfold writeText
    split <;> exact ⟨f, hs, .refl f⟩
  | _ => exact ⟨f, hs, .refl f⟩

/-- A program leaves the frame on top with all its effects, and the others as they were. -/
theorem run_tookDown {α : Type} (hs : s.frames = f :: outer) (p : Program κ σ α) :
    ∃ f', (s.run p).2.frames = f' :: outer ∧ f.TookDown (s.effectsOf p) f' := by
  induction p generalizing s f with
  | done a => exact ⟨f, hs, .refl f⟩
  | ask call next ih =>
    obtain ⟨f₁, hs₁, hf₁⟩ := answer_tookDown hs call
    obtain ⟨f₂, hs₂, hf₂⟩ := ih _ hs₁
    exact ⟨f₂, hs₂, hf₁.trans hf₂⟩

/-- Observers work in one frame, one after another. -/
theorem runObservers_frames (hs : s.frames = f :: outer) (x : Executor κ σ) (patch : Json)
    (observers : List κ) : ∃ f', (runObservers x patch observers s).frames = f' :: outer := by
  induction observers generalizing s f with
  | nil => exact ⟨f, hs⟩
  | cons observer rest ih =>
    obtain ⟨f', hs', -⟩ := run_tookDown hs (x.observe observer patch)
    exact ih hs'

/-- Observers leave the frame in which they work, and those around it are back. -/
theorem leave_runObservers (s : Session κ σ) (cell : CellId) (kind : FrameKind) (x : Executor κ σ)
    (patch : Json) (observers : List κ) :
    (runObservers x patch observers (s.enter cell kind)).leave.2 =
      { runObservers x patch observers (s.enter cell kind) with frames := s.frames } := by
  have hs : (s.enter cell kind).frames = ⟨cell, kind, 0, [], []⟩ :: s.frames := rfl
  obtain ⟨f', hframes⟩ := runObservers_frames hs x patch observers
  unfold leave
  rw [hframes]

/-- Outside of all activities no call begins one. -/
theorem answer_frames_nil (hs : s.frames = []) (call : Call κ σ) :
    (s.answer call).2.frames = [] := by
  have hrefused : ∀ {α : Type} (g : Frame → Except Error α × Session κ σ),
      (s.inFrame g).2.frames = [] := fun g => by simp [inFrame, hs]
  cases call with
  | recordEffect | createElement | createState | bindModel | observeModel | watch =>
    exact hrefused _
  | writeState id value =>
    show (s.writeState id value).2.frames = []
    unfold writeState
    split <;> simp [record, withFrame, hs]
  | writeText handle text =>
    show (s.writeText handle text).2.frames = []
    unfold writeText
    split <;> exact hs
  | _ => exact hs

theorem run_frames_nil {α : Type} (hs : s.frames = []) (p : Program κ σ α) :
    (s.run p).2.frames = [] := by
  induction p generalizing s with
  | done a => exact hs
  | ask call next ih => exact ih _ (answer_frames_nil hs call)

/-- The frame that an activity leaves is that of its cell, with the effects of its program; the
frames around it are back. -/
theorem leave_run {α : Type} (s : Session κ σ) (cell : CellId) (kind : FrameKind)
    (p : Program κ σ α) :
    ∃ frame, ((s.enter cell kind).run p).2.leave =
        (some frame, { ((s.enter cell kind).run p).2 with frames := s.frames }) ∧
      Frame.TookDown ((s.enter cell kind).effectsOf p) ⟨cell, kind, 0, [], []⟩ frame := by
  have hs : (s.enter cell kind).frames = ⟨cell, kind, 0, [], []⟩ :: s.frames := rfl
  obtain ⟨frame, hframes, hframe⟩ := run_tookDown hs p
  refine ⟨frame, ?_, hframe⟩
  unfold leave
  rw [hframes]

/-! ## §3. Without effects. -/

/-- What cells have set up is the same: elements with their names, states with the queued writes,
models with their nesting and their observers, and watches. -/
structure Untouched (s s' : Session κ σ) : Prop where
  elements : s'.elements = s.elements
  states : s'.states = s.states
  models : s'.models = s.models
  watches : s'.watches = s.watches
  nextWatch : s'.nextWatch = s.nextWatch

/-- What cells have set up is the same, but for models that were nested. -/
structure Relinked (links : List (ModelId × ModelId)) (s s' : Session κ σ) : Prop where
  elements : s'.elements = s.elements
  states : s'.states = s.states
  models : s'.models = s.models.linkAll links
  watches : s'.watches = s.watches
  nextWatch : s'.nextWatch = s.nextWatch

omit [HashFunction] in
theorem Relinked.trans {links links' : List (ModelId × ModelId)} {s'' : Session κ σ}
    (h : Relinked links s s') (h' : Relinked links' s' s'') : Relinked (links ++ links') s s'' where
  elements := h'.elements.trans h.elements
  states := h'.states.trans h.states
  models := by
    rw [h'.models, h.models]
    exact (List.foldl_append ..).symm
  watches := h'.watches.trans h.watches
  nextWatch := h'.nextWatch.trans h.nextWatch

omit [HashFunction] in
/-- Nested or not is all that can be the matter. -/
theorem Relinked.untouched_iff {links : List (ModelId × ModelId)} (h : Relinked links s s') :
    Untouched s s' ↔ s.models.Nested links := by
  rw [← ModelTable.linkAll_eq_iff, ← h.models]
  exact ⟨Untouched.models, fun hm => ⟨h.elements, h.states, hm, h.watches, h.nextWatch⟩⟩

end Session

/-- The models that a call nests: the first one in the second one. -/
def Call.link? {κ σ : Type} : Call κ σ → Option (ModelId × ModelId)
  | .linkModel child parent => some (child, parent)
  | _ => none

namespace Session

variable [HashFunction] {κ σ : Type} {s : Session κ σ}

/-- The models that a program nests when it runs now. -/
def linksOf {α : Type} (s : Session κ σ) : Program κ σ α → List (ModelId × ModelId)
  | .done _ => []
  | .ask call next => call.link?.toList ++ (s.answer call).2.linksOf (next (s.answer call).1)

/-- A call without an effect changes the nesting of models at most. -/
theorem relinked_answer {call : Call κ σ} (hnone : s.effect? call = none) :
    Relinked call.link?.toList s (s.answer call).2 := by
  have hkept : Relinked [] s s := ⟨rfl, rfl, rfl, rfl, rfl⟩
  cases call with
  | createElement place kind value =>
    show Relinked [] s (s.createElement place kind value).2
    unfold createElement inFrame
    -- without a frame, or for an observer, the element is refused before anything is done
    cases hs : s.frames with
    | nil => exact hkept
    | cons f outer =>
      cases hkind : f.kind with
      | callback => simpa only [hkind] using hkept
      | run => simp [effect?, hs, hkind] at hnone
  | linkModel child parent => exact ⟨rfl, rfl, rfl, rfl, rfl⟩
  | writeText handle text =>
    show Relinked [] s (s.writeText handle text).2
    unfold writeText
    split <;> exact ⟨rfl, rfl, rfl, rfl, rfl⟩
  | memoize scope strategy result => exact ⟨rfl, rfl, rfl, rfl, rfl⟩
  | send event => exact ⟨rfl, rfl, rfl, rfl, rfl⟩
  | abort => exact ⟨rfl, rfl, rfl, rfl, rfl⟩
  | own change => exact ⟨rfl, rfl, rfl, rfl, rfl⟩
  | recordEffect | createState | writeState | bindModel | observeModel | watch => cases hnone
  | _ => exact hkept

/-- A program without effects changes the nesting of models at most. -/
theorem relinked_run {α : Type} {p : Program κ σ α} (hnone : s.effectsOf p = []) :
    Relinked (s.linksOf p) s (s.run p).2 := by
  induction p generalizing s with
  | done a => exact ⟨rfl, rfl, rfl, rfl, rfl⟩
  | ask call next ih =>
    obtain ⟨hfirst, hrest⟩ := List.append_eq_nil_iff.1 hnone
    have hcall : s.effect? call = none := by simpa using hfirst
    exact (relinked_answer hcall).trans (ih _ hrest)

/-- **When a pure activity has left no trace.**  Whatever the session, the activity and its program,
the frame that is left is that of the cell and tells the effects of the program.  If there are none,
then all that cells have set up is as it was, but for models that the program nested; and it is as
it was throughout just when those were nested there already. -/
theorem pure_untouched_iff {α : Type} (s : Session κ σ) (cell : CellId) (kind : FrameKind)
    (p : Program κ σ α) :
    ∃ frame s', ((s.enter cell kind).run p).2.leave = (some frame, s') ∧
      frame.cell = cell ∧ frame.kind = kind ∧ s'.frames = s.frames ∧
      frame.effects = (s.enter cell kind).effectsOf p ∧
      (frame.isPure = true → Relinked ((s.enter cell kind).linksOf p) s s' ∧
        (Untouched s s' ↔ s.models.Nested ((s.enter cell kind).linksOf p))) := by
  obtain ⟨frame, hleave, hframe⟩ := leave_run s cell kind p
  refine ⟨frame, _, hleave, hframe.cell, hframe.kind, rfl, hframe.effects, fun hpure => ?_⟩
  have hnone : (s.enter cell kind).effectsOf p = [] := by
    have heffects := hframe.effects
    rw [List.isEmpty_iff.1 hpure] at heffects
    exact heffects.symm
  have hlinked := relinked_run hnone
  have hrelinked : Relinked ((s.enter cell kind).linksOf p) s
      { ((s.enter cell kind).run p).2 with frames := s.frames } :=
    ⟨hlinked.elements, hlinked.states, hlinked.models, hlinked.watches, hlinked.nextWatch⟩
  exact ⟨hrelinked, hrelinked.untouched_iff⟩

/-! ## §4. An adoption. -/

/-- A session in which cell 1 owns the model `p`. -/
def household : Session Unit Unit :=
  { models := ({} : ModelTable Unit).bind ⟨"p"⟩ ⟨1⟩, own := () }

/-- Asks for the owner of the model `c` and nests it in the model `p`. -/
def adopt : Program Unit Unit (Option CellId) :=
  .ask (.modelOwner ⟨"c"⟩) fun owner => .ask (.linkModel ⟨"c"⟩ ⟨"p"⟩) fun _ => .done owner

omit [HashFunction] in
/-- The model `c` was nobody's, and cell 1 owns it after a pure run of cell 0. -/
theorem adoption_is_pure :
    let _ := Sha256.hashFunction
    ∃ frame s', ((household.enter ⟨0⟩ .run).run adopt).2.leave = (some frame, s') ∧
      frame.isPure = true ∧ household.models.owner? ⟨"c"⟩ = none ∧
      s'.models.owner? ⟨"c"⟩ = some ⟨1⟩ ∧ ¬ Untouched household s' := by
  intro _
  have hbefore : household.models.owner? ⟨"c"⟩ = none := rfl
  have hafter : ((household.enter ⟨0⟩ .run).run adopt).2.models.owner? ⟨"c"⟩ = some ⟨1⟩ := rfl
  refine ⟨_, _, rfl, rfl, hbefore, hafter, fun h => ?_⟩
  have howner := congrArg (fun t : ModelTable Unit => t.owner? ⟨"c"⟩) h.models
  exact Option.some_ne_none _ (hafter.symm.trans (howner.trans hbefore))

omit [HashFunction] in
/-- The second time it is no news. -/
theorem adopted_before_untouched :
    let _ := Sha256.hashFunction
    let s := ((household.enter ⟨0⟩ .run).run adopt).2.leave.2
    ∃ frame s', ((s.enter ⟨0⟩ .run).run adopt).2.leave = (some frame, s') ∧
      frame.isPure = true ∧ Untouched s s' := by
  intro _ s
  obtain ⟨frame, s', hleave, -, -, -, heffects, huntouched⟩ :=
    pure_untouched_iff s ⟨0⟩ .run adopt
  have hpure : frame.isPure = true := by
    unfold Frame.isPure
    rw [heffects]
    rfl
  refine ⟨frame, s', hleave, hpure, (huntouched hpure).2.2 fun child parent hlast => ?_⟩
  have hlinks : (s.enter ⟨0⟩ .run).linksOf adopt = [(⟨"c"⟩, ⟨"p"⟩)] := rfl
  rw [hlinks] at hlast
  by_cases hchild : child = ⟨"c"⟩
  · subst hchild
    obtain rfl : (⟨"p"⟩ : ModelId) = parent := by simpa using hlast
    rfl
  · have hne : (child == (⟨"c"⟩ : ModelId)) = false := beq_false_of_ne hchild
    simp [hne] at hlast

end Session

end Notebook
