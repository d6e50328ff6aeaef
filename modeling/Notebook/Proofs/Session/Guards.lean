/-
  Notebook.Proofs.Session.Guards — who may touch a watched path.

  A session lives through a history: activities begin and end, programs ask, and the kernel and the
  world do the rest.  Whose activity is the innermost is read off the history alone: it is the one
  that began last among those that have not ended, and between its beginning and now every activity
  that began has ended.  A handle, be it fresh or rebuilt from its number, is one that a call to
  watch returned once, in an activity of its creator.

  Looking at a path is refused just while its creator's activity is the innermost, and then nothing
  changes.  Writing to it is never refused.

  Main results:
    * `Session.currentCell_after_iff` — whose activity is the innermost, from the history,
    * `Session.Obtained.wasReturned` — a handle that is rebuilt is one that was returned,
    * `Session.touch_guarded_iff` — the ways to touch a path that keep to the guard: all but
      writing, and that one too while its creator's activity is not the innermost,
    * `Session.creator_writes_unguarded` — a creator that replaces the content of its own path.
-/
import Mathlib.Data.List.Induction
import Notebook.Proofs.Disk.Ways
import Notebook.Proofs.Session.Frames

namespace Notebook

/-! ## §1. Histories. -/

/-- What happens to a session. -/
inductive Move (κ σ : Type) where
  /-- An activity begins. -/
  | enter (cell : CellId) (kind : FrameKind)
  /-- The innermost activity ends. -/
  | leave
  | ask (call : Call κ σ)
  /-- What the previous run of a cell has set up is dropped. -/
  | beginCell (cell : CellId)
  | finishCell (cell : CellId) (frame : Frame)
  | removeCell (cell : CellId)
  | reset
  /-- Whatever else changes, in the kernel or on the disk, becomes what it is in `other`. -/
  | elsewhere (other : Session κ σ)

namespace Move

variable {κ σ : Type}

/-- The cells whose activities are under way, the innermost first, after a move. -/
def nest : Move κ σ → List CellId → List CellId
  | .enter cell _, cells => cell :: cells
  | .leave, cells => cells.tail
  | _, cells => cells

/-- How many of the activities that began are still under way, if none ended but those. -/
def depth : Move κ σ → Option Nat → Option Nat
  | .enter _ _, d => d.map (· + 1)
  | .leave, some (d + 1) => some d
  | .leave, _ => none
  | _, d => d

/-- The number of activities that began in a history and have not ended; none if it ends one that
was under way before. -/
def opened? (ms : List (Move κ σ)) : Option Nat := ms.foldl (fun d m => m.depth d) (some 0)

/-- So many activities further in, an activity of the cell is under way. -/
def UnderwayAt (ms : List (Move κ σ)) (d : Nat) (cell : CellId) : Prop :=
  ∃ earlier kind inner, ms = earlier ++ .enter cell kind :: inner ∧ opened? inner = some d

/-- The innermost activity is one of the cell: every activity that began after it has ended. -/
def InnermostAt (ms : List (Move κ σ)) (cell : CellId) : Prop := UnderwayAt ms 0 cell

variable {m : Move κ σ} {ms : List (Move κ σ)} {c : CellId} {d : Nat}

theorem opened?_concat (ms : List (Move κ σ)) (m : Move κ σ) :
    opened? (ms ++ [m]) = m.depth (opened? ms) := by
  simp only [opened?, List.foldl_append, List.foldl_cons, List.foldl_nil]

/-- The activity was under way before the last move, or it began with it. -/
theorem underwayAt_concat : UnderwayAt (ms ++ [m]) d c ↔
    (∃ kind, m = .enter c kind ∧ d = 0) ∨
      ∃ earlier kind inner, ms = earlier ++ .enter c kind :: inner ∧
        m.depth (opened? inner) = some d := by
  constructor
  · rintro ⟨earlier, kind, inner, hms, hd⟩
    rcases List.eq_nil_or_concat inner with rfl | ⟨inner, last, rfl⟩
    · obtain ⟨-, hm⟩ := List.append_inj' hms rfl
      refine .inl ⟨kind, (List.cons.inj hm).1, ?_⟩
      exact (Option.some.inj hd).symm
    · have hsplit : ms ++ [m] = (earlier ++ .enter c kind :: inner) ++ [last] := by
        rw [hms, List.append_assoc, List.cons_append, List.concat_eq_append]
      obtain ⟨hbefore, hlast⟩ := List.append_inj' hsplit rfl
      rw [List.concat_eq_append, opened?_concat, ← (List.cons.inj hlast).1] at hd
      exact .inr ⟨earlier, kind, inner, hbefore, hd⟩
  · rintro (⟨kind, rfl, rfl⟩ | ⟨earlier, kind, inner, rfl, hd⟩)
    · exact ⟨ms, kind, [], rfl, rfl⟩
    · refine ⟨earlier, kind, inner ++ [m], ?_, ?_⟩
      · rw [List.append_assoc, List.cons_append]
      · rw [opened?_concat]
        exact hd

theorem depth_leave_eq_some {n : Option Nat} :
    (leave : Move κ σ).depth n = some d ↔ n = some (d + 1) := by
  rcases n with _ | _ | n
  · simp [depth]
  · simp [depth]
  · show some n = some d ↔ some (n + 1) = some (d + 1)
    rw [Option.some_inj, Option.some_inj]
    omega

/-- A move that neither begins nor ends an activity leaves those that are under way where they
were. -/
theorem underwayAt_concat_of_depth (henter : ∀ cell kind, m ≠ .enter cell kind)
    (hdepth : ∀ n, m.depth n = n) : UnderwayAt (ms ++ [m]) d c ↔ UnderwayAt ms d c := by
  rw [underwayAt_concat]
  constructor
  · rintro (⟨kind, hm, -⟩ | ⟨earlier, kind, inner, hms, hd⟩)
    · exact absurd hm (henter c kind)
    · exact ⟨earlier, kind, inner, hms, by rwa [hdepth] at hd⟩
  · rintro ⟨earlier, kind, inner, hms, hd⟩
    exact .inr ⟨earlier, kind, inner, hms, by rwa [hdepth]⟩

/-- The cells under way are the stack that the moves build, position by position. -/
theorem underwayAt_iff (ms : List (Move κ σ)) (d : Nat) (c : CellId) :
    UnderwayAt ms d c ↔ (ms.foldl (fun cells m => m.nest cells) [])[d]? = some c := by
  -- by induction on the history, from its last move back: that one is on top of the stack
  induction ms using List.reverseRecOn generalizing d with
  | nil => simp [UnderwayAt]
  | append_singleton ms m ih =>
    rw [List.foldl_append, List.foldl_cons, List.foldl_nil]
    generalize ms.foldl (fun cells m => m.nest cells) [] = cells at ih ⊢
    cases m with
    | enter cell kind =>
      show UnderwayAt (ms ++ [.enter cell kind]) d c ↔ (cell :: cells)[d]? = some c
      rw [underwayAt_concat]
      cases d with
      | zero => simp [depth]
      | succ d =>
        rw [List.getElem?_cons_succ, ← ih d]
        simp [depth, UnderwayAt]
    | leave =>
      show UnderwayAt (ms ++ [.leave]) d c ↔ cells.tail[d]? = some c
      rw [underwayAt_concat, List.getElem?_tail, ← ih (d + 1)]
      simp only [depth_leave_eq_some, UnderwayAt, reduceCtorEq, false_and, exists_false, false_or]
    | ask | beginCell | finishCell | removeCell | reset | elsewhere =>
      rw [underwayAt_concat_of_depth (by simp) (fun _ => rfl)]
      exact ih d

end Move

/-! ## §2. The session along a history. -/

namespace Session

variable [HashFunction] {κ σ : Type} {s₀ s s' : Session κ σ} {ms : List (Move κ σ)}
  {h : Handle} {c : CellId}

/-- The session after a move. -/
def move (s : Session κ σ) : Move κ σ → Session κ σ
  | .enter cell kind => s.enter cell kind
  | .leave => s.leave.2
  | .ask call => (s.answer call).2
  | .beginCell cell => s.beginCell cell
  | .finishCell cell frame => s.finishCell cell frame
  | .removeCell cell => s.removeCell cell
  | .reset => s.reset
  | .elsewhere other =>
    { other with frames := s.frames, watches := s.watches, nextWatch := s.nextWatch }

/-- The session after a history. -/
def after (s : Session κ σ) (ms : List (Move κ σ)) : Session κ σ := ms.foldl move s

theorem after_concat (s : Session κ σ) (ms : List (Move κ σ)) (m : Move κ σ) :
    s.after (ms ++ [m]) = (s.after ms).move m := by
  simp only [after, List.foldl_append, List.foldl_cons, List.foldl_nil]

omit [HashFunction] in
/-- A new session: nothing is under way and no path is watched. -/
structure IsNew (s : Session κ σ) : Prop where
  frames : s.frames = []
  watches : s.watches = .empty

/-- No call begins an activity or ends one. -/
theorem cells_answer (s : Session κ σ) (call : Call κ σ) :
    (s.answer call).2.frames.map Frame.cell = s.frames.map Frame.cell := by
  cases hs : s.frames with
  | nil => rw [answer_frames_nil hs]
  | cons frame outer =>
    obtain ⟨frame', hs', hframe⟩ := answer_tookDown hs call
    rw [hs', List.map_cons, List.map_cons, hframe.cell]

theorem cells_move (s : Session κ σ) (m : Move κ σ) :
    (s.move m).frames.map Frame.cell = m.nest (s.frames.map Frame.cell) := by
  cases m with
  | ask call => exact cells_answer s call
  | leave =>
    show (s.leave.2).frames.map Frame.cell = (s.frames.map Frame.cell).tail
    unfold leave
    cases hs : s.frames with
    | nil => simp [hs]
    | cons frame outer => rfl
  | _ => rfl

theorem cells_after (s : Session κ σ) (ms : List (Move κ σ)) :
    (s.after ms).frames.map Frame.cell =
      ms.foldl (fun cells m => m.nest cells) (s.frames.map Frame.cell) := by
  induction ms generalizing s with
  | nil => rfl
  | cons m ms ih =>
    show ((s.move m).after ms).frames.map Frame.cell = _
    rw [ih, cells_move, List.foldl_cons]

/-- **Whose activity is the innermost.**  Whatever the activities and however they nest, it is the
cell that began last of those whose activities have not ended. -/
theorem currentCell_after_iff (hs₀ : s₀.IsNew) (ms : List (Move κ σ)) (c : CellId) :
    (s₀.after ms).currentCell = some c ↔ Move.InnermostAt ms c := by
  unfold Move.InnermostAt
  rw [Move.underwayAt_iff, ← List.head?_eq_getElem?, currentCell, ← List.head?_map, cells_after,
    hs₀.frames, List.map_nil]

/-! ## §3. Handles. -/

/-- In the history, a call to watch returned the handle. -/
def Returned (s₀ : Session κ σ) (ms : List (Move κ σ)) (h : Handle) : Prop :=
  ∃ earlier path kind later, ms = earlier ++ .ask (.watch path kind) :: later ∧
    ((s₀.after earlier).watch path kind).1 = .ok h

/-- In the history, code came by the handle: a call to watch returned it, or it was rebuilt from the
number of a watch. -/
inductive Obtained (s₀ : Session κ σ) (ms : List (Move κ σ)) (h : Handle) : Prop
  | fresh (hreturned : Returned s₀ ms h)
  | rebuilt (earlier : List (Move κ σ)) (kind : WatchKind) (later : List (Move κ σ))
      (hms : ms = earlier ++ .ask (.handle h.id kind) :: later)
      (hfound : (s₀.after earlier).handle? h.id kind = some h)

theorem Returned.append (hreturned : Returned s₀ ms h) (later : List (Move κ σ)) :
    Returned s₀ (ms ++ later) h := by
  obtain ⟨earlier, path, kind, between, rfl, hh⟩ := hreturned
  refine ⟨earlier, path, kind, between ++ later, ?_, hh⟩
  rw [List.append_assoc, List.cons_append]

omit [HashFunction] in
theorem watches_inFrame {α : Type} {g : Frame → Except Error α × Session κ σ}
    (hg : ∀ frame outer, s.frames = frame :: outer → (g frame).2.watches = s.watches) :
    (s.inFrame g).2.watches = s.watches := by
  unfold inFrame
  split
  · exact hg _ _ ‹_›
  · rfl

omit [HashFunction] in
theorem watches_withFrame (s : Session κ σ) (g : Frame → Frame) :
    (s.withFrame g).watches = s.watches := by
  unfold withFrame
  split <;> rfl

omit [HashFunction] in
/-- A handle that a call to watch returned is for that path, and its creator is the cell whose
activity was the innermost. -/
theorem watch_eq_ok {path : Path} {kind : WatchKind} (hh : (s.watch path kind).1 = .ok h) :
    h.path = path ∧ s.currentCell = some h.creator ∧
      (s.watch path kind).2.watches = s.watches.insert h.id ⟨path, kind, h.creator⟩ := by
  unfold watch at hh ⊢
  cases hs : s.frames with
  | nil => simp [inFrame, hs] at hh
  | cons frame outer =>
    rw [inFrame_of_frames hs] at hh ⊢
    obtain rfl := Except.ok.inj hh
    refine ⟨rfl, by simp [currentCell, hs], ?_⟩
    exact watches_withFrame ..

omit [HashFunction] in
/-- A call to watch is refused where nothing is under way, and then nothing changes. -/
theorem watch_eq_error {path : Path} {kind : WatchKind} {e : Error}
    (hh : (s.watch path kind).1 = .error e) : (s.watch path kind).2 = s := by
  unfold watch inFrame at hh ⊢
  split at hh
  · cases hh
  · rfl

/-- Only a call to watch adds a watch. -/
theorem watches_answer (s : Session κ σ) {call : Call κ σ}
    (hcall : ∀ path kind, call ≠ .watch path kind) : (s.answer call).2.watches = s.watches := by
  cases call with
  | watch path kind => exact absurd rfl (hcall path kind)
  | recordEffect text => exact watches_inFrame fun _ _ _ => watches_withFrame ..
  | createElement place kind value =>
    refine watches_inFrame fun frame _ _ => ?_
    cases frame.kind with
    | callback => rfl
    | run =>
      dsimp only
      split <;> exact watches_withFrame ..
  | createState | bindModel | observeModel =>
    exact watches_inFrame fun _ _ _ => watches_withFrame ..
  | writeState id value =>
    show (s.writeState id value).2.watches = s.watches
    unfold writeState
    split <;> exact watches_withFrame ..
  | writeText handle text =>
    show (s.writeText handle text).2.watches = s.watches
    unfold writeText
    split <;> rfl
  | _ => rfl

/-- Every watch is one that a call to watch returned. -/
theorem returned_of_watched (hs₀ : s₀.IsNew) {id : WatchId} {w : Watch}
    (hw : (s₀.after ms).watches.get? id = some w) : Returned s₀ ms ⟨id, w.path, w.creator⟩ := by
  induction ms using List.reverseRecOn with
  | nil =>
    have hnone : (s₀.after []).watches = .empty := hs₀.watches
    rw [hnone] at hw
    cases hw
  | append_singleton ms m ih =>
    rw [after_concat] at hw
    have hkept : (s₀.after ms).watches.get? id = some w →
        Returned s₀ (ms ++ [m]) ⟨id, w.path, w.creator⟩ := fun hw => (ih hw).append [m]
    have hdropped : ∀ cell, ((s₀.after ms).watches.filter fun _ w => w.creator != cell).get? id =
        some w → (s₀.after ms).watches.get? id = some w := by
      intro cell hget
      rw [Table.get?_filter] at hget
      exact (Option.filter_eq_some_iff.1 hget).1
    cases m with
    | ask call =>
      by_cases hcall : ∃ path kind, call = .watch path kind
      · obtain ⟨path, kind, rfl⟩ := hcall
        change ((s₀.after ms).watch path kind).2.watches.get? id = some w at hw
        cases hh : ((s₀.after ms).watch path kind).1 with
        | error e =>
          rw [watch_eq_error hh] at hw
          exact hkept hw
        | ok h =>
          obtain ⟨hpath, -, hwatches⟩ := watch_eq_ok hh
          rw [hwatches, Table.get?_insert] at hw
          split at hw
          · rename_i hid
            obtain rfl := Option.some.inj hw
            refine ⟨ms, path, kind, [], rfl, ?_⟩
            rw [hh, hid, ← hpath]
          · exact hkept hw
      · change ((s₀.after ms).answer call).2.watches.get? id = some w at hw
        rw [watches_answer _ fun path kind heq => hcall ⟨path, kind, heq⟩] at hw
        exact hkept hw
    | beginCell cell => exact hkept (hdropped cell hw)
    | removeCell cell => exact hkept (hdropped cell hw)
    | reset => cases hw
    | leave =>
      refine hkept ?_
      change ((s₀.after ms).leave.2).watches.get? id = some w at hw
      unfold leave at hw
      split at hw <;> exact hw
    | enter | finishCell | elsewhere => exact hkept hw

/-- A handle that code came by is one that a call to watch returned: to rebuild it gives it back as
it was. -/
theorem Obtained.wasReturned (hs₀ : s₀.IsNew) (hobtained : Obtained s₀ ms h) :
    Returned s₀ ms h := by
  cases hobtained with
  | fresh hreturned => exact hreturned
  | rebuilt earlier kind later hms hfound =>
    unfold handle? at hfound
    split at hfound
    · rename_i w hw
      split at hfound
      · have heq := Option.some.inj hfound
        rw [hms]
        refine Returned.append ?_ _
        rw [← heq]
        exact returned_of_watched hs₀ hw
      · cases hfound
    · cases hfound

/-- The creator of a handle was the cell whose activity was the innermost when the path was first
watched. -/
theorem Returned.innermostAt (hs₀ : s₀.IsNew) (hreturned : Returned s₀ ms h) :
    ∃ earlier kind later, ms = earlier ++ .ask (.watch h.path kind) :: later ∧
      Move.InnermostAt earlier h.creator := by
  obtain ⟨earlier, path, kind, later, hms, hh⟩ := hreturned
  obtain ⟨rfl, hcell, -⟩ := watch_eq_ok hh
  exact ⟨earlier, kind, later, hms, (currentCell_after_iff hs₀ earlier _).1 hcell⟩

/-! ## §4. Touching a watched path. -/

omit [HashFunction] in
/-- The cell whose activity is the innermost is the creator: the look is refused. -/
theorem guarded_of_creator {α : Type} (hcell : s.currentCell = some h.creator)
    (look : Except Error α) :
    s.guarded h look = .error (.reentrantWatchAccess h.creator h.path.text) := by
  unfold guarded
  rw [if_pos hcell]

omit [HashFunction] in
/-- It is not: the look is had. -/
theorem guarded_of_other {α : Type} (hcell : s.currentCell ≠ some h.creator)
    (look : Except Error α) : s.guarded h look = look := by
  unfold guarded
  rw [if_neg hcell]

end Session

/-- The ways to touch a watched path. -/
inductive Touch where
  | readText
  | readBytes
  | writeText (text : String)
  | fileExists
  | directoryExists
  | entries
  | walk

namespace Touch

/-- What comes of it if it is allowed and succeeds. -/
def Result : Touch → Type
  | .readText => String
  | .readBytes => List UInt8
  | .writeText _ => Unit
  | .fileExists => Bool
  | .directoryExists => Bool
  | .entries => List Path
  | .walk => List Path

/-- Whether it writes. -/
def Writes (t : Touch) : Prop := ∃ text, t = .writeText text

variable [HashFunction] {κ σ : Type}

/-- The reply to the call, and the session after it. -/
def perform (s : Session κ σ) (h : Handle) :
    (t : Touch) → Except Error t.Result × Session κ σ
  | .readText => s.answer (.readText h)
  | .readBytes => s.answer (.readBytes h)
  | .writeText text => s.answer (.writeText h text)
  | .fileExists => s.answer (.fileExists h)
  | .directoryExists => s.answer (.directoryExists h)
  | .entries => s.answer (.entries h)
  | .walk => s.answer (.walk h)

/-- The refusal of the guard. -/
def Refused {α : Type} (reply : Except Error α) : Prop :=
  ∃ cell path, reply = .error (.reentrantWatchAccess cell path)

/-- A touch keeps to the guard: while the creator's activity is the innermost it is refused and
nothing changes, and otherwise the guard lets it pass, and it is answered as if nothing were
running. -/
structure KeepsToGuard (t : Touch) (s : Session κ σ) (h : Handle) (reentrant : Prop) : Prop where
  refused : reentrant →
    t.perform s h = (.error (.reentrantWatchAccess h.creator h.path.text), s)
  passed : ¬ reentrant → ¬ Refused (t.perform s h).1 ∧
    (t.perform s h).1 = (t.perform { s with frames := [] } h).1

end Touch

namespace Session

variable [HashFunction] {κ σ : Type} {s₀ s : Session κ σ} {ms : List (Move κ σ)} {h : Handle}

omit [HashFunction] in
/-- What fails on the disk is not refused by the guard. -/
theorem not_refused_mapError {ε α : Type} (f : ε → Error) (x : Except ε α)
    (hf : ∀ e cell path, f e ≠ .reentrantWatchAccess cell path) :
    ¬ Touch.Refused (x.mapError f) := by
  rintro ⟨cell, path, hx⟩
  cases x with
  | ok a => cases hx
  | error e => exact hf e cell path (Except.error.inj hx)

omit [HashFunction] in
/-- A guarded look at something that the disk alone decides. -/
theorem guarded_spec {α : Type} (s : Session κ σ) (h : Handle) {look : Except Error α}
    (hlook : ¬ Touch.Refused look) :
    (s.currentCell = some h.creator →
      (s.guarded h look, s) = (.error (.reentrantWatchAccess h.creator h.path.text), s)) ∧
    (s.currentCell ≠ some h.creator → ¬ Touch.Refused (s.guarded h look) ∧
      s.guarded h look = ({ s with frames := [] } : Session κ σ).guarded h look) := by
  constructor
  · intro hcell
    rw [guarded_of_creator hcell]
  · intro hcell
    rw [guarded_of_other hcell, guarded_of_other (by simp [currentCell])]
    exact ⟨hlook, rfl⟩

/-- Every look goes through the guard. -/
theorem look_keepsToGuard {t : Touch} (hlook : ¬ t.Writes) (s : Session κ σ) (h : Handle) :
    t.KeepsToGuard s h (s.currentCell = some h.creator) := by
  have hdisk : ∀ {α : Type} (x : Except IoError α), ¬ Touch.Refused (x.mapError .io) :=
    fun x => not_refused_mapError .io x (by simp)
  have hanswer : ∀ b : Bool, ¬ Touch.Refused (Except.ok b) := by simp [Touch.Refused]
  cases t with
  | writeText text => exact absurd ⟨text, rfl⟩ hlook
  | readText =>
    obtain ⟨hin, hout⟩ := guarded_spec s h (hdisk (s.disk.readText h.path))
    exact ⟨hin, hout⟩
  | readBytes =>
    obtain ⟨hin, hout⟩ := guarded_spec s h (hdisk (s.disk.readBytes h.path))
    exact ⟨hin, hout⟩
  | fileExists =>
    obtain ⟨hin, hout⟩ := guarded_spec s h (hanswer (s.disk.isFile h.path))
    exact ⟨hin, hout⟩
  | directoryExists =>
    obtain ⟨hin, hout⟩ := guarded_spec s h (hanswer (s.disk.isDirectory h.path))
    exact ⟨hin, hout⟩
  | entries =>
    obtain ⟨hin, hout⟩ := guarded_spec s h (hdisk (s.disk.entries h.path))
    exact ⟨hin, hout⟩
  | walk =>
    -- a walk that fails says so in its own words
    have hwalk : ¬ Touch.Refused (s.walk h) := not_refused_mapError _ _ (by simp)
    obtain ⟨hin, hout⟩ := guarded_spec s h hwalk
    exact ⟨hin, hout⟩

/-- Nobody asks the guard before writing. -/
theorem write_not_refused (s : Session κ σ) (h : Handle) (text : String) :
    ¬ Touch.Refused ((Touch.writeText text).perform s h).1 := by
  show ¬ Touch.Refused (s.writeText h text).1
  unfold writeText
  split <;> simp [Touch.Refused]

/-- A write that the disk allows is carried out, whoever is running. -/
theorem write_of_ok {text : String} {disk : Disk}
    (hdisk : s.disk.write h.path (utf8 text) = .ok disk) :
    (Touch.writeText text).perform s h = (.ok (), { s with disk }) := by
  show s.writeText h text = _
  unfold writeText
  rw [hdisk]
  rfl

/-- A write is answered as if nothing were running. -/
theorem write_frames (s : Session κ σ) (h : Handle) (text : String) (frames : List Frame) :
    ((Touch.writeText text).perform s h).1 =
      ((Touch.writeText text).perform { s with frames } h).1 := by
  show (s.writeText h text).1 = (writeText { s with frames } h text).1
  unfold writeText
  dsimp only
  split <;> rfl

/-- **The creator never touches its path, unless it writes.**  Let a handle be got in a history, as
the answer to a call to watch or rebuilt from its number, and let code touch its path.  The handle
was returned while its creator's activity was the innermost.  The touch keeps to the guard, which
refuses it just while the creator's activity is the innermost now, unless it is a write then: that
one is carried out. -/
theorem touch_guarded_iff (hs₀ : s₀.IsNew) (hobtained : Obtained s₀ ms h) (t : Touch) :
    (∃ earlier kind later, ms = earlier ++ .ask (.watch h.path kind) :: later ∧
      Move.InnermostAt earlier h.creator) ∧
    (t.KeepsToGuard (s₀.after ms) h (Move.InnermostAt ms h.creator) ↔
      (t.Writes → ¬ Move.InnermostAt ms h.creator)) ∧
    (t.Writes → ¬ Touch.Refused (t.perform (s₀.after ms) h).1) := by
  refine ⟨(hobtained.wasReturned hs₀).innermostAt hs₀, ?_, ?_⟩
  · rw [← currentCell_after_iff hs₀]
    by_cases hwrites : t.Writes
    · obtain ⟨text, rfl⟩ := hwrites
      constructor
      · intro hkeeps _ hcell
        have hrefused := congrArg Prod.fst (hkeeps.refused hcell)
        exact write_not_refused (s₀.after ms) h text ⟨h.creator, h.path.text, hrefused⟩
      · intro hother
        refine ⟨fun hcell => absurd hcell (hother ⟨text, rfl⟩), fun _ => ?_⟩
        exact ⟨write_not_refused _ h text, write_frames _ h text []⟩
    · exact ⟨fun _ h => absurd h hwrites, fun _ => look_keepsToGuard hwrites _ h⟩
  · rintro ⟨text, rfl⟩
    exact write_not_refused _ h text

omit [HashFunction] in
/-- A handle of cell 0 that cell 1 rebuilds: while observers of cell 0 work it may be written
through, and not read through. -/
theorem rebuilt_guarded_in_callback :
    let _ := Sha256.hashFunction
    let s₀ : Session Unit Unit := { own := () }
    let ms : List (Move Unit Unit) :=
      [.enter ⟨0⟩ .run, .ask (.watch ⟨"x"⟩ .file), .leave, .enter ⟨1⟩ .run,
        .ask (.handle ⟨0⟩ .file), .enter ⟨0⟩ .callback]
    s₀.IsNew ∧ Obtained s₀ ms ⟨⟨0⟩, ⟨"x"⟩, ⟨0⟩⟩ ∧
      Touch.readText.perform (s₀.after ms) ⟨⟨0⟩, ⟨"x"⟩, ⟨0⟩⟩ =
        (.error (.reentrantWatchAccess ⟨0⟩ "x"), s₀.after ms) ∧
      ¬ Touch.Refused ((Touch.writeText "").perform (s₀.after ms) ⟨⟨0⟩, ⟨"x"⟩, ⟨0⟩⟩).1 := by
  intro _ s₀ ms
  have hnew : s₀.IsNew := ⟨rfl, rfl⟩
  have hobtained : Obtained s₀ ms ⟨⟨0⟩, ⟨"x"⟩, ⟨0⟩⟩ :=
    .rebuilt (ms.take 4) .file (ms.drop 5) rfl rfl
  have hinnermost : Move.InnermostAt ms ⟨0⟩ := ⟨ms.take 5, .callback, [], rfl, rfl⟩
  obtain ⟨-, hread, -⟩ := touch_guarded_iff hnew hobtained .readText
  obtain ⟨-, -, hwrite⟩ := touch_guarded_iff hnew hobtained (.writeText "")
  have hkeeps := hread.2 fun ⟨_, hread⟩ => nomatch hread
  exact ⟨hnew, hobtained, hkeeps.refused hinnermost, hwrite ⟨"", rfl⟩⟩

omit [HashFunction] in
/-- A cell watches a path and, in the same run, replaces the content of the file. -/
theorem creator_writes_unguarded :
    let _ := Sha256.hashFunction
    let s₀ : Session Unit Unit := { own := () }
    let ms : List (Move Unit Unit) := [.enter ⟨0⟩ .run, .ask (.watch ⟨"x"⟩ .file)]
    let h : Handle := ⟨⟨0⟩, ⟨"x"⟩, ⟨0⟩⟩
    s₀.IsNew ∧ Obtained s₀ ms h ∧ Move.InnermostAt ms h.creator ∧
      ((Touch.writeText "new").perform (s₀.after ms) h).1 = .ok () ∧
      ((Touch.writeText "new").perform (s₀.after ms) h).2.disk ≠ (s₀.after ms).disk := by
  intro _ s₀ ms h
  have hlocate : ({} : Disk).locate ⟨"x"⟩ = .ok (.entry [] "x") :=
    (Disk.locate_eq (by simp) (by decide) (by decide)).trans rfl
  have hwrite : ({} : Disk).write ⟨"x"⟩ (utf8 "new") =
      .ok (({} : Disk).put ["x"] (.file (utf8 "new"))) := by
    rw [Disk.write, hlocate]
    rfl
  have hperform := write_of_ok (s := s₀.after ms) (h := h) hwrite
  refine ⟨⟨rfl, rfl⟩, .fresh ⟨ms.take 1, ⟨"x"⟩, .file, [], rfl, rfl⟩, ?_, ?_, ?_⟩
  · exact ⟨[], .run, ms.drop 1, rfl, rfl⟩
  · rw [hperform]
  · rw [hperform]
    intro hsame
    cases congrArg (fun d : Disk => d.nodes.get? ["x"]) hsame

end Session

end Notebook
