/-
  Notebook.Proofs.Session.Holdings — what cells hold, and since when.

  States, watches and observers belong to the cell that set them up, and models to the cell that they
  are bound to.  The session does not say when that was.  A chronicle does: cells begin to run in it,
  and what a program sets up for its cell is noted there, call by call (`Deed`).

  Main results:
    * `Session.advances_run` — what cells hold after a program, they held before or are noted to have
      set up,
    * `Kept.advance` — programs that run for live cells keep what `Kept` says,
    * `Kept.beginCell` / `Kept.removeCell` — and so does beginning a run and removing a cell.
-/
import Notebook.Proofs.Session.Frames

namespace Notebook

/-! ## §1. Deeds. -/

/-- What cells do for what they hold. -/
inductive Deed (κ : Type) where
  /-- A cell begins to run, or it is served from the cache. -/
  | began (cell : CellId)
  | created (cell : CellId) (state : StateId)
  | watched (cell : CellId) (watch : WatchId)
  | bound (cell : CellId) (model : ModelId)
  | observed (cell : CellId) (model : ModelId) (observer : κ)

variable {κ σ : Type} {T D D' : List (Deed κ)} {a c : CellId} {p q : List (Deed κ) → Prop}

/-- The cell has set something up. -/
def Deed.IsBy (c : CellId) : Deed κ → Prop
  | .began _ => False
  | .created cell _ => cell = c
  | .watched cell _ => cell = c
  | .bound cell _ => cell = c
  | .observed cell _ _ => cell = c

/-- The cell has begun to run, and what happened since it began the latest time has the property
`p`. -/
def Since (T : List (Deed κ)) (c : CellId) (p : List (Deed κ) → Prop) : Prop :=
  ∃ earlier later, T = earlier ++ .began c :: later ∧ .began c ∉ later ∧ p later

namespace Since

/-- While the cell does not begin again, more happens since it began. -/
theorem append (h : Since T c p) (hnone : .began c ∉ D)
    (hp : ∀ later, p later → q (later ++ D)) : Since (T ++ D) c q := by
  obtain ⟨earlier, later, rfl, hlater, hold⟩ := h
  refine ⟨earlier, later ++ D, by simp, ?_, hp later hold⟩
  rw [List.mem_append]
  exact not_or.2 ⟨hlater, hnone⟩

theorem began (T : List (Deed κ)) (c : CellId) : Since (T ++ [.began c]) c fun _ => True :=
  ⟨T, [], rfl, List.not_mem_nil, trivial⟩

theorem mono (h : Since T c p) (hp : ∀ later, p later → q later) : Since T c q := by
  obtain ⟨earlier, later, hT, hlater, hold⟩ := h
  exact ⟨earlier, later, hT, hlater, hp later hold⟩

end Since

/-! ## §2. Observers of a cell. -/

namespace ModelTable

variable {t : ModelTable κ} {m : ModelId}

/-- The observers that a cell has left with a model, in order. -/
def observersBy (t : ModelTable κ) (m : ModelId) (c : CellId) : List κ :=
  (((t.observers.get? m).getD []).filter fun o => o.1 == c).map (·.2)

theorem observersBy_observe (t : ModelTable κ) (model m : ModelId) (cell c : CellId)
    (observer : κ) : (t.observe model cell observer).observersBy m c =
      if m = model ∧ c = cell then t.observersBy m c ++ [observer] else t.observersBy m c := by
  unfold observe observersBy
  rw [Table.get?_insert]
  by_cases hm : m = model
  · subst hm
    by_cases hc : c = cell
    · simp [hc]
    · have hne : (cell == c) = false := beq_false_of_ne (Ne.symm hc)
      simp [hc, hne]
  · simp [hm]

theorem observersBy_clearObserversOf (t : ModelTable κ) (cell c : CellId) (m : ModelId) :
    (t.clearObserversOf cell).observersBy m c = if c = cell then [] else t.observersBy m c := by
  unfold clearObserversOf observersBy
  rw [Table.get?_filter, Table.get?_map]
  cases t.observers.get? m with
  | none => simp
  | some list =>
    -- a model without observers is dropped from the table, which makes no difference here
    have hkept : ((some (list.filter fun o => o.1 != cell)).filter fun l => !l.isEmpty).getD [] =
        list.filter fun o => o.1 != cell := by
      cases list.filter fun o => o.1 != cell <;> rfl
    show (((((some (list.filter fun o => o.1 != cell)).filter fun l => !l.isEmpty).getD []).filter
      fun o => o.1 == c).map (·.2)) = _
    rw [hkept, List.filter_filter]
    by_cases hc : c = cell
    · subst hc
      simp [List.filter_eq_nil_iff]
    · rw [if_neg hc, Option.getD_some]
      congr 1
      refine List.filter_congr fun o _ => ?_
      by_cases ho : o.1 = c
      · simp [ho, hc]
      · simp [ho]

theorem observersBy_drop (t : ModelTable κ) (models : List ModelId) (m : ModelId) (c : CellId) :
    ((t.drop models).observersBy m c).Sublist (t.observersBy m c) := by
  unfold drop observersBy
  rw [Table.get?_filter]
  cases t.observers.get? m with
  | none => simp
  | some list =>
    rw [Option.filter_some]
    by_cases hm : m ∈ models <;> simp [hm]

theorem observersBy_prune (t : ModelTable κ) (m : ModelId) (c : CellId) :
    (t.prune.observersBy m c).Sublist (t.observersBy m c) := by
  suffices hrounds : ∀ (rounds : Nat) (t : ModelTable κ),
      ((pruneRounds rounds t).observersBy m c).Sublist (t.observersBy m c) from hrounds _ t
  intro rounds
  induction rounds with
  | zero => exact fun t => .refl _
  | succ rounds ih =>
    intro t
    unfold pruneRounds
    split
    · exact .refl _
    · exact (ih _).trans (observersBy_drop ..)

theorem observersBy_retain (t : ModelTable κ) (cell c : CellId) (keep : List ModelId)
    (m : ModelId) : ((t.retain cell keep).2.observersBy m c).Sublist (t.observersBy m c) :=
  (observersBy_prune ..).trans (observersBy_drop ..)

end ModelTable

/-! ## §3. What a program sets up. -/

namespace Session

variable {s s' : Session κ σ} {f : Frame} {outer : List Frame}

/-- The cell that created a state. -/
def creator? (s : Session κ σ) (id : StateId) : Option CellId :=
  (s.states.slots.get? id).map StateSlot.creator

/-- The cell that watches a path. -/
def watcher? (s : Session κ σ) (id : WatchId) : Option CellId :=
  (s.watches.get? id).map Watch.creator

/-- From the one session to the other, cells hold nothing new but what `D` notes. -/
structure Advances (D : List (Deed κ)) (s s' : Session κ σ) : Prop where
  states : ∀ id c, s'.creator? id = some c → s.creator? id = some c ∨ .created c id ∈ D
  watches : ∀ id c, s'.watcher? id = some c → s.watcher? id = some c ∨ .watched c id ∈ D
  models : ∀ m c, s'.models.cell? m = some c → s.models.cell? m = some c ∨ .bound c m ∈ D
  observers : ∀ m c, ((s'.models.observersBy m c).map (Deed.observed c m)).Sublist
    ((s.models.observersBy m c).map (Deed.observed c m) ++ D)

namespace Advances

/-- What leaves states, watches and models alone. -/
theorem of_eq (hstates : s'.states.slots = s.states.slots) (hwatches : s'.watches = s.watches)
    (hmodels : s'.models = s.models) : Advances D s s' where
  states := fun id c h => by
    unfold creator? at h
    rw [hstates] at h
    exact .inl h
  watches := fun id c h => by
    unfold watcher? at h
    rw [hwatches] at h
    exact .inl h
  models := fun m c h => .inl (hmodels ▸ h)
  observers := fun m c => by
    rw [hmodels]
    exact List.sublist_append_left ..

theorem refl (s : Session κ σ) : Advances [] s s := of_eq rfl rfl rfl

theorem trans {s'' : Session κ σ} (h : Advances D s s') (h' : Advances D' s' s'') :
    Advances (D ++ D') s s'' where
  states := fun id c hc => by
    rcases h'.states id c hc with hc | hin
    · exact (h.states id c hc).imp_right (List.mem_append_left D')
    · exact .inr (List.mem_append_right D hin)
  watches := fun id c hc => by
    rcases h'.watches id c hc with hc | hin
    · exact (h.watches id c hc).imp_right (List.mem_append_left D')
    · exact .inr (List.mem_append_right D hin)
  models := fun m c hc => by
    rcases h'.models m c hc with hc | hin
    · exact (h.models m c hc).imp_right (List.mem_append_left D')
    · exact .inr (List.mem_append_right D hin)
  observers := fun m c => by
    rw [← List.append_assoc]
    exact (h'.observers m c).trans ((h.observers m c).append_right D')

/-- The frames do not count. -/
theorem withFrame (h : Advances D s s') (g : Frame → Frame) : Advances D s (s'.withFrame g) := by
  unfold Session.withFrame
  split
  · exact ⟨h.states, h.watches, h.models, h.observers⟩
  · exact h

theorem record (h : Advances D s s') (e : Effect) : Advances D s (s'.record e) :=
  h.withFrame fun frame => frame.record e

end Advances

/-- The models of a cell that its run did not bind again are lost, and what is nested in them. -/
theorem advances_finishCell (s : Session κ σ) (cell : CellId) (frame : Frame) :
    Advances [] s (s.finishCell cell frame) where
  states := fun _ _ h => .inl h
  watches := fun _ _ h => .inl h
  models := fun m c h => by
    have hretain := ModelTable.cell?_retain s.models cell frame.boundModels m
    rw [show (s.finishCell cell frame).models.cell? m = _ from hretain] at h
    split at h
    · cases h
    · exact .inl h
  observers := fun m c => by
    rw [List.append_nil]
    exact (ModelTable.observersBy_retain ..).map _

/-- What a call sets up for the cell on whose behalf it is made. -/
def deed? (s : Session κ σ) (call : Call κ σ) : Option (Deed κ) :=
  s.currentCell.bind fun cell =>
    match call with
    | .createState _ => some (.created cell ⟨s.states.nextId⟩)
    | .watch _ _ => some (.watched cell ⟨s.nextWatch⟩)
    | .bindModel model => some (.bound cell model)
    | .observeModel model observer => some (.observed cell model observer)
    | _ => none

theorem deed?_isBy {call : Call κ σ} {d : Deed κ} (h : s.deed? call = some d) :
    ∃ c, s.currentCell = some c ∧ d.IsBy c := by
  obtain ⟨cell, hcell, hd⟩ := Option.bind_eq_some_iff.1 h
  refine ⟨cell, hcell, ?_⟩
  cases call with
  | createState | watch | bindModel | observeModel =>
    obtain rfl := Option.some.inj hd
    rfl
  | _ => cases hd

/-- A write changes the value of a state, and not whose it is. -/
theorem creator_set {st st' : StateStore} {id : StateId} {value : Json} {origin : Origin}
    (h : st.set id value origin = .ok st') (a : StateId) :
    (st'.slots.get? a).map StateSlot.creator = (st.slots.get? a).map StateSlot.creator := by
  unfold StateStore.set at h
  split at h
  · rename_i slot hslot
    obtain rfl := Except.ok.inj h
    rw [Table.get?_insert]
    by_cases ha : a = id
    · rw [if_pos ha, ha, hslot]
      rfl
    · rw [if_neg ha]
  · cases h

theorem advances_inFrame {α : Type} {g : Frame → Except Error α × Session κ σ}
    (hg : ∀ frame outer, s.frames = frame :: outer → Advances D s (g frame).2) :
    Advances D s (s.inFrame g).2 := by
  unfold inFrame
  split
  · exact hg _ _ ‹_›
  · exact .of_eq rfl rfl rfl

variable [HashFunction]

/-- A call sets up what is noted of it, and nothing else. -/
theorem advances_answer (s : Session κ σ) (call : Call κ σ) :
    Advances (s.deed? call).toList s (s.answer call).2 := by
  have hkept : ∀ {D : List (Deed κ)}, Advances D s s := .of_eq rfl rfl rfl
  have hcell : ∀ {frame outer}, s.frames = frame :: outer → s.currentCell = some frame.cell :=
    fun hs => by simp [currentCell, hs]
  cases call with
  | recordEffect text => exact advances_inFrame fun _ _ _ => hkept.record _
  | createElement place kind value =>
    refine advances_inFrame fun frame _ _ => ?_
    cases frame.kind with
    | callback => exact hkept
    | run =>
      dsimp only
      split
      · have hcounted := hkept.withFrame (D := (s.deed? (.createElement place kind value)).toList)
          fun f => { f with ordinal := f.ordinal + 1 }.record
            (.createElement (ElementId.derive frame.cell frame.ordinal))
        exact ⟨hcounted.states, hcounted.watches, hcounted.models, hcounted.observers⟩
      · exact hkept.withFrame _
  | createState initial =>
    refine advances_inFrame fun frame outer hs => ?_
    refine Advances.record ?_ _
    refine ⟨fun id c h => ?_, fun _ _ h => .inl h, fun _ _ h => .inl h,
      fun _ _ => List.sublist_append_left ..⟩
    unfold creator? StateStore.create at h
    rw [Table.get?_insert] at h
    split at h
    · rename_i hid
      obtain rfl := Option.some.inj h
      exact .inr (by simp [deed?, hcell hs, hid])
    · exact .inl h
  | writeState id value =>
    show Advances _ s (s.writeState id value).2
    unfold writeState
    split
    · rename_i states hset
      refine Advances.record ?_ _
      refine ⟨fun a c h => .inl ?_, fun _ _ h => .inl h, fun _ _ h => .inl h,
        fun _ _ => List.sublist_append_left ..⟩
      exact (creator_set hset a).symm.trans h
    · exact hkept.record _
  | bindModel model =>
    refine advances_inFrame fun frame outer hs => ?_
    refine Advances.withFrame ?_ _
    refine ⟨fun _ _ h => .inl h, fun _ _ h => .inl h, fun m c h => ?_,
      fun _ _ => List.sublist_append_left ..⟩
    rw [ModelTable.cell?_bind] at h
    split at h
    · rename_i hm
      obtain rfl := Option.some.inj h
      exact .inr (by simp [deed?, hcell hs, hm])
    · exact .inl h
  | observeModel model observer =>
    refine advances_inFrame fun frame outer hs => ?_
    refine Advances.record ?_ _
    refine ⟨fun _ _ h => .inl h, fun _ _ h => .inl h, fun _ _ h => .inl h,
      fun m c => ?_⟩
    rw [ModelTable.observersBy_observe]
    split
    · rename_i hm
      simp [deed?, hcell hs, hm]
    · exact List.sublist_append_left ..
  | watch path kind =>
    refine advances_inFrame fun frame outer hs => ?_
    refine Advances.record ?_ _
    refine ⟨fun _ _ h => .inl h, fun id c h => ?_, fun _ _ h => .inl h,
      fun _ _ => List.sublist_append_left ..⟩
    unfold watcher? at h
    rw [Table.get?_insert] at h
    split at h
    · rename_i hid
      obtain rfl := Option.some.inj h
      exact .inr (by simp [deed?, hcell hs, hid])
    · exact .inl h
  | linkModel child parent =>
    exact ⟨fun _ _ h => .inl h, fun _ _ h => .inl h,
      fun m c h => .inl ((ModelTable.cell?_link ..).symm.trans h),
      fun _ _ => List.sublist_append_left ..⟩
  | writeText handle text =>
    show Advances _ s (s.writeText handle text).2
    unfold writeText
    split <;> exact .of_eq rfl rfl rfl
  | memoize => exact .of_eq rfl rfl rfl
  | send | abort | own => exact .of_eq rfl rfl rfl
  | _ => exact hkept

/-- What a program sets up when it runs now. -/
def deedsOf {α : Type} (s : Session κ σ) : Program κ σ α → List (Deed κ)
  | .done _ => []
  | .ask call next => (s.deed? call).toList ++ (s.answer call).2.deedsOf (next (s.answer call).1)

/-- What observers set up that are told a patch now. -/
def deedsOfObservers (x : Executor κ σ) (patch : Json) :
    List κ → Session κ σ → List (Deed κ)
  | [], _ => []
  | observer :: rest, s =>
    s.deedsOf (x.observe observer patch) ++
      deedsOfObservers x patch rest (s.run (x.observe observer patch)).2

/-- A program sets up what is noted of it, and nothing else. -/
theorem advances_run {α : Type} (s : Session κ σ) (p : Program κ σ α) :
    Advances (s.deedsOf p) s (s.run p).2 := by
  induction p generalizing s with
  | done a => exact .refl s
  | ask call next ih => exact (advances_answer s call).trans (ih _ (s.answer call).2)

theorem advances_runObservers (x : Executor κ σ) (patch : Json) (observers : List κ)
    (s : Session κ σ) : Advances (deedsOfObservers x patch observers s) s
      (runObservers x patch observers s) := by
  induction observers generalizing s with
  | nil => exact .refl s
  | cons observer rest ih => exact (advances_run s _).trans (ih _)

/-- Everything that a program sets up is for the cell that it runs for. -/
theorem deedsOf_isBy {α : Type} (hs : s.frames = f :: outer) (p : Program κ σ α) :
    ∀ d ∈ s.deedsOf p, d.IsBy f.cell := by
  induction p generalizing s f with
  | done a => exact fun d hd => absurd hd List.not_mem_nil
  | ask call next ih =>
    intro d hd
    rcases List.mem_append.1 hd with hd | hd
    · obtain ⟨c, hc, hby⟩ := deed?_isBy (Option.mem_toList.1 hd)
      obtain rfl : f.cell = c := by simpa [currentCell, hs] using hc
      exact hby
    · obtain ⟨f', hs', hf'⟩ := answer_tookDown hs call
      rw [← hf'.cell]
      exact ih _ hs' d hd

theorem deedsOfObservers_isBy (hs : s.frames = f :: outer) (x : Executor κ σ) (patch : Json)
    (observers : List κ) : ∀ d ∈ deedsOfObservers x patch observers s, d.IsBy f.cell := by
  induction observers generalizing s f with
  | nil => exact fun d hd => absurd hd List.not_mem_nil
  | cons observer rest ih =>
    intro d hd
    rcases List.mem_append.1 hd with hd | hd
    · exact deedsOf_isBy hs _ d hd
    · obtain ⟨f', hs', hf'⟩ := run_tookDown hs (x.observe observer patch)
      rw [← hf'.cell]
      exact ih hs' d hd

/-- Outside of all activities nobody sets anything up. -/
theorem deedsOf_outside {α : Type} (hs : s.frames = []) (p : Program κ σ α) :
    s.deedsOf p = [] := by
  induction p generalizing s with
  | done a => rfl
  | ask call next ih =>
    have hnone : s.deed? call = none := by simp [deed?, currentCell, hs]
    rw [deedsOf, hnone, ih _ (answer_frames_nil hs call)]
    rfl

end Session

/-! ## §4. Holders are live. -/

/-- After the chronicle `T`, whoever holds something is live, and has begun to run; its states, its
watches and its observers were set up since it began the latest time. -/
structure Kept (live : CellId → Prop) (T : List (Deed κ)) (s : Session κ σ) : Prop where
  states : ∀ id c, s.creator? id = some c → live c ∧ Since T c (.created c id ∈ ·)
  watches : ∀ id c, s.watcher? id = some c → live c ∧ Since T c (.watched c id ∈ ·)
  models : ∀ m c, s.models.cell? m = some c → live c ∧ Since T c fun _ => True
  observers : ∀ m c, s.models.observersBy m c ≠ [] → live c ∧ Since T c fun later =>
    ((s.models.observersBy m c).map (Deed.observed c m)).Sublist later

namespace Kept

variable {live live' : CellId → Prop} {s s' : Session κ σ}

/-- Where nothing is held there is nothing to see to. -/
theorem of_none (hstates : s.states.slots = .empty) (hwatches : s.watches = .empty)
    (hmodels : s.models = {}) : Kept live T s where
  states := fun id c h => by
    unfold Session.creator? at h
    rw [hstates] at h
    cases h
  watches := fun id c h => by
    unfold Session.watcher? at h
    rw [hwatches] at h
    cases h
  models := fun m c h => by
    rw [hmodels] at h
    cases h
  observers := fun m c h => by
    rw [hmodels] at h
    exact absurd rfl h

theorem mono (h : Kept live T s) (hlive : ∀ c, live c → live' c) : Kept live' T s where
  states := fun id c hc => (h.states id c hc).imp_left (hlive c)
  watches := fun id c hc => (h.watches id c hc).imp_left (hlive c)
  models := fun m c hc => (h.models m c hc).imp_left (hlive c)
  observers := fun m c hc => (h.observers m c hc).imp_left (hlive c)

/-- Live cells that have begun to run may set up what they like. -/
theorem advance (h : Kept live T s) (hstep : s.Advances D s')
    (hD : ∀ d ∈ D, ∃ c, d.IsBy c ∧ live c ∧ Since T c fun _ => True) : Kept live (T ++ D) s' := by
  have hbegan : ∀ c, .began c ∉ D := fun c hin => by
    obtain ⟨c', hby, -⟩ := hD _ hin
    exact hby
  -- what was held before is older than `D`, and the rest is part of it
  have hold : ∀ {c} {p q : List (Deed κ) → Prop}, live c ∧ Since T c p →
      (∀ later, p later → q (later ++ D)) → live c ∧ Since (T ++ D) c q :=
    fun hc hp => hc.imp_right fun hsince => hsince.append (hbegan _) hp
  have hnew : ∀ {c} {d : Deed κ} {q : List (Deed κ) → Prop}, d ∈ D → (∀ c', d.IsBy c' → c = c') →
      (∀ later, q (later ++ D)) → live c ∧ Since (T ++ D) c q := by
    intro c d q hin hc hq
    obtain ⟨c', hby, hlive⟩ := hD d hin
    obtain rfl := hc c' hby
    exact hold hlive fun later _ => hq later
  refine ⟨fun id c hc => ?_, fun id c hc => ?_, fun m c hc => ?_, fun m c hc => ?_⟩
  · rcases hstep.states id c hc with hc | hin
    · exact hold (h.states id c hc) fun later hl => List.mem_append_left D hl
    · exact hnew hin (fun _ hby => hby) fun later => List.mem_append_right later hin
  · rcases hstep.watches id c hc with hc | hin
    · exact hold (h.watches id c hc) fun later hl => List.mem_append_left D hl
    · exact hnew hin (fun _ hby => hby) fun later => List.mem_append_right later hin
  · rcases hstep.models m c hc with hc | hin
    · exact hold (h.models m c hc) fun _ _ => trivial
    · exact hnew hin (fun _ hby => hby) fun _ => trivial
  · have hsub := hstep.observers m c
    by_cases hnone : s.models.observersBy m c = []
    · rw [hnone, List.map_nil, List.nil_append] at hsub
      obtain ⟨observer, hin⟩ := List.exists_mem_of_ne_nil _ hc
      exact hnew (hsub.subset (List.mem_map_of_mem hin)) (fun _ hby => hby)
        fun later => hsub.trans (List.sublist_append_right later D)
    · exact hold (h.observers m c hnone) fun later hl => hsub.trans (hl.append_right D)

/-- Losing something is no matter. -/
theorem lose (h : Kept live T s) (hstep : s.Advances [] s') : Kept live T s' := by
  have hkept := h.advance hstep fun d hd => absurd hd List.not_mem_nil
  rwa [List.append_nil] at hkept

end Kept

namespace Session

variable {s : Session κ σ}

theorem creator?_beginCell (s : Session κ σ) (c : CellId) (id : StateId) :
    (s.beginCell c).creator? id = (s.creator? id).filter fun cell => cell != c := by
  unfold beginCell dropWatchesOf creator? StateStore.removeCell
  rw [Table.get?_filter, Option.filter_map]
  rfl

theorem watcher?_beginCell (s : Session κ σ) (c : CellId) (id : WatchId) :
    (s.beginCell c).watcher? id = (s.watcher? id).filter fun cell => cell != c := by
  unfold beginCell dropWatchesOf watcher?
  rw [Table.get?_filter, Option.filter_map]
  rfl

theorem observersBy_beginCell (s : Session κ σ) (c a : CellId) (m : ModelId) :
    (s.beginCell c).models.observersBy m a = if a = c then [] else s.models.observersBy m a :=
  ModelTable.observersBy_clearObserversOf ..

/-- A cell that is removed loses its models, too. -/
theorem cell?_removeCell (s : Session κ σ) (c : CellId) (m : ModelId) :
    (s.removeCell c).models.cell? m = (s.models.cell? m).filter fun cell => cell != c := by
  refine (ModelTable.cell?_retain (s.models.clearObserversOf c) c [] m).trans ?_
  rw [ModelTable.cell?_clearObserversOf]
  cases s.models.cell? m with
  | none => rfl
  | some cell =>
    rw [Option.filter_some]
    by_cases hc : cell = c <;> simp [hc]

end Session

namespace Kept

variable {live : CellId → Prop} {s : Session κ σ}

/-- When a cell begins to run, it keeps nothing but its models. -/
theorem beginCell (h : Kept live T s) (c : CellId) : Kept live (T ++ [.began c]) (s.beginCell c) := by
  have hother : ∀ {a} {p q : List (Deed κ) → Prop}, a ≠ c → live a ∧ Since T a p →
      (∀ later, p later → q (later ++ [.began c])) → live a ∧ Since (T ++ [.began c]) a q :=
    fun hne ha hp => ha.imp_right fun hsince => hsince.append (by simp [hne]) hp
  refine ⟨fun id a ha => ?_, fun id a ha => ?_, fun m a ha => ?_, fun m a ha => ?_⟩
  · rw [Session.creator?_beginCell, Option.filter_eq_some_iff] at ha
    exact hother (bne_iff_ne.1 ha.2) (h.states id a ha.1) fun _ hl => List.mem_append_left _ hl
  · rw [Session.watcher?_beginCell, Option.filter_eq_some_iff] at ha
    exact hother (bne_iff_ne.1 ha.2) (h.watches id a ha.1) fun _ hl => List.mem_append_left _ hl
  · have hmodel := h.models m a ha
    by_cases hc : a = c
    · subst hc
      exact ⟨hmodel.1, .began T a⟩
    · exact hother hc hmodel fun _ _ => trivial
  · rw [Session.observersBy_beginCell] at ha ⊢
    split at ha
    · exact absurd rfl ha
    · rename_i hc
      rw [if_neg hc]
      exact hother hc (h.observers m a ha) fun later hl => hl.trans (List.sublist_append_left ..)

/-- A cell that is removed holds nothing any more. -/
theorem removeCell (h : Kept live T s) (c : CellId) :
    Kept (fun a => live a ∧ a ≠ c) T (s.removeCell c) := by
  have hother : ∀ {a} {p : List (Deed κ) → Prop}, a ≠ c → live a ∧ Since T a p →
      (live a ∧ a ≠ c) ∧ Since T a p := fun hne ha => ha.imp_left fun hlive => ⟨hlive, hne⟩
  refine ⟨fun id a ha => ?_, fun id a ha => ?_, fun m a ha => ?_, fun m a ha => ?_⟩
  · rw [show (s.removeCell c).creator? id = _ from s.creator?_beginCell c id,
      Option.filter_eq_some_iff] at ha
    exact hother (bne_iff_ne.1 ha.2) (h.states id a ha.1)
  · rw [show (s.removeCell c).watcher? id = _ from s.watcher?_beginCell c id,
      Option.filter_eq_some_iff] at ha
    exact hother (bne_iff_ne.1 ha.2) (h.watches id a ha.1)
  · rw [Session.cell?_removeCell, Option.filter_eq_some_iff] at ha
    exact hother (bne_iff_ne.1 ha.2) (h.models m a ha.1)
  · -- of the observers of other cells some may go with the models of this one
    have hsub : ((s.removeCell c).models.observersBy m a).Sublist
        ((s.beginCell c).models.observersBy m a) := ModelTable.observersBy_retain ..
    rw [Session.observersBy_beginCell] at hsub
    split at hsub
    · exact absurd (List.sublist_nil.1 hsub) ha
    · rename_i hc
      have hbefore : s.models.observersBy m a ≠ [] := fun hnone => by
        rw [hnone] at hsub
        exact ha (List.sublist_nil.1 hsub)
      refine hother hc ((h.observers m a hbefore).imp_right fun hsince => ?_)
      exact hsince.mono fun later hl => (hsub.map _).trans hl

end Kept

end Notebook
