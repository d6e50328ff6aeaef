/-
  Notebook.Proofs.Kernel.Books — the tables of a kernel agree about every cell.

  Where a cell stands, whether its registration waits, its last error, and whether it is to be run
  are kept in tables of their own.  `Books` is what they say about one cell, and `Books.Sound` is
  what they may say between two operations.  An edit moves the books of one cell, and at most marks
  others as stale; a round moves the books of the cells that it comes to, which until then need only
  be sound once they are marked.

  Main results:
    * `Balanced.registerCells` / `Balanced.deleteCell` — edits keep the books sound,
    * `Balanced.asked` / `Balanced.reset` / `Balanced.apply` — and so does whatever is asked,
    * `Due.visit` / `Balanced.round` — and so does a round, whether or not it is stopped.
-/
import Notebook.Proofs.Kernel.Reachable

namespace Notebook

open Relation

/-! ## §1. The books of a cell. -/

/-- What the tables of a kernel say about one cell. -/
structure Books where
  /-- Where the cell stands, if it is live. -/
  status : Option CellStatus
  /-- Whether its registration waits. -/
  parked : Bool
  error : Option CellError
  pending : Bool
  forced : Bool

namespace Books

variable {b : Books}

/-- The books that a cell may have between two operations. -/
structure Sound (b : Books) : Prop where
  apart : b.parked = true → b.status = none
  forced_pending : b.forced = true → b.pending = true
  pending_live : b.pending = true → b.status.isSome = true
  error_known : b.error.isSome = true → b.status.isSome = true ∨ b.parked = true
  refused : b.parked = true ↔ b.error.any CellError.isMultipleDefinition = true
  at_rest : b.status ≠ some .queued ∧ b.status ≠ some .running
  idle : b.status = some .idle → b.error = none

/-- The books of a cell that becomes stale, if it is live. -/
def marked (b : Books) : Books := { b with status := b.status.map fun _ => .stale }

theorem Sound.marked (h : b.Sound) : b.marked.Sound where
  apart := by
    intro hparked
    simp [Books.marked, h.apart hparked]
  forced_pending := h.forced_pending
  pending_live := by
    intro hpending
    simpa [Books.marked] using h.pending_live hpending
  error_known := by
    intro herror
    simpa [Books.marked] using h.error_known herror
  refused := h.refused
  at_rest := by cases hs : b.status <;> simp [Books.marked, hs]
  idle := by cases hs : b.status <;> simp [Books.marked, hs]

/-- A live cell ends idle without an error, or not idle with an error that is no conflict. -/
theorem Sound.ended {now : CellStatus} {error : Option CellError} (h : b.marked.Sound)
    (hlive : b.status.isSome = true) (hnow : now ≠ .queued ∧ now ≠ .running)
    (hidle : now = .idle → error = none)
    (herror : error.any CellError.isMultipleDefinition = false) :
    ({ b with status := some now, error } : Books).Sound := by
  have hparked : b.parked = false := by
    refine Bool.eq_false_iff.2 fun hin => ?_
    have hnone := h.apart hin
    simp only [Books.marked, Option.map_eq_none_iff] at hnone
    simp [hnone] at hlive
  exact
    { apart := by simp [hparked]
      forced_pending := h.forced_pending
      pending_live := fun _ => rfl
      error_known := fun _ => .inl rfl
      refused := by simp [hparked, herror]
      at_rest := by simpa using hnow
      idle := by simpa using hidle }

/-- A live cell may be asked for. -/
theorem Sound.asked (h : b.Sound) (hlive : b.status.isSome = true) (forced : Bool) :
    ({ b with pending := true, forced } : Books).Sound :=
  { h with forced_pending := fun _ => rfl, pending_live := fun _ => hlive }

end Books

namespace Kernel

variable {κ σ : Type} {k k' : Kernel κ σ} {id : CellId} {S : CellSpec → Prop} {spec : CellSpec}

/-- What the tables say about a cell. -/
def booksOf (k : Kernel κ σ) (id : CellId) : Books where
  status := k.graph.status? id
  parked := k.parked.contains id
  error := k.errors.get? id
  pending := k.pending.has id
  forced := k.forced.has id

theorem live_of_status (h : (k.booksOf id).status.isSome = true) :
    k.graph.contains id = true := by
  obtain ⟨s, hs⟩ := Option.isSome_iff_exists.1 h
  exact Graph.contains_of_status? hs

theorem status_of_live (h : k.graph.contains id = true) :
    (k.booksOf id).status.isSome = true := by
  obtain ⟨c, hc⟩ := Option.isSome_iff_exists.1 h
  show (k.graph.status? id).isSome = true
  rw [Graph.status?_of_cell? hc]
  rfl

/-- The tables agree about every cell. -/
def Balanced (k : Kernel κ σ) : Prop := ∀ id, (k.booksOf id).Sound

/-! ## §2. Edits. -/

/-- Only the books of one cell have moved, other cells being marked at most. -/
def MovedAt (k k' : Kernel κ σ) (id : CellId) : Prop :=
  ∀ a, a ≠ id → k'.booksOf a = k.booksOf a ∨ k'.booksOf a = (k.booksOf a).marked

/-- Besides the books of that one cell there is nothing to look at. -/
theorem MovedAt.balanced (h : MovedAt k k' id) (hk : k.Balanced)
    (hself : (k'.booksOf id).Sound) : k'.Balanced := by
  intro a
  by_cases ha : a = id
  · rw [ha]
    exact hself
  · rcases h a ha with h | h <;> rw [h]
    · exact hk a
    · exact (hk a).marked

theorem MovedAt.tail {k₁ : Kernel κ σ} (h : MovedAt k k₁ id)
    (h' : ∀ a, a ≠ id → k'.booksOf a = k₁.booksOf a) : MovedAt k k' id := by
  intro a ha
  rw [h' a ha]
  exact h a ha

/-- Marking a cell that is live, and leaving its other tables alone. -/
theorem booksOf_marked {a : CellId} (hlive : k.graph.contains a = true)
    (hstatus : k'.graph.status? a = some .stale) (hparked : k'.parked.get? a = k.parked.get? a)
    (herror : k'.errors.get? a = k.errors.get? a)
    (hpending : k'.pending.has a = k.pending.has a) (hforced : k'.forced = k.forced) :
    k'.booksOf a = (k.booksOf a).marked := by
  obtain ⟨s, hs⟩ := Option.isSome_iff_exists.1 (status_of_live hlive)
  simp only [Books.marked, hs]
  simp only [booksOf, Table.contains, hstatus, hparked, herror, hpending, hforced, Option.map_some]

theorem Removed.moved {c : Cell} (h : Removed k k' c) : MovedAt k k' c.id := by
  intro a ha
  by_cases hedge : k.graph.Edge c.id a
  · refine .inr (booksOf_marked hedge.contains_right (h.status_child a hedge) ?_ ?_ ?_ h.forced)
    · rw [h.parked]
    · rw [h.errors]
    · rw [h.pending]
  · refine .inl ?_
    unfold booksOf
    rw [h.status_other a ha hedge, h.parked, h.errors, h.pending, h.forced]

/-- Removing a cell that is live or not moves no other books, and leaves it not live. -/
theorem removeFromGraph_moved (hk : k.Coherent) (id : CellId) :
    MovedAt k (k.removeFromGraph id) id ∧
      (k.removeFromGraph id).graph.status? id = none := by
  cases hc : k.graph.cell? id with
  | none =>
    have hout : k.graph.contains id = false := by simp [Graph.contains, hc]
    rw [removeFromGraph_of_not_live hout]
    exact ⟨fun a _ => .inl rfl, Graph.status?_of_not_live hout⟩
  | some c =>
    obtain rfl := Graph.cell?_id hc
    have h := removeFromGraph_removed hk hc
    exact ⟨h.moved, Graph.status?_of_not_live h.not_live⟩

/-- A cell that is put into the graph is to be run and has no error. -/
theorem Balanced.registered {g : Graph} {dropped : List String} (hk : k.Balanced)
    (hcoherent : k.Coherent) (h : Registered S k k' spec g dropped) : k'.Balanced := by
  have hg := hcoherent.wellFormed
  have hpending : ∀ a, a ≠ spec.id → k'.pending.has a = k.pending.has a := by
    intro a ha
    rw [Bool.eq_iff_iff, h.pending a, or_iff_right ha]
  have hmoved : MovedAt k k' spec.id := by
    intro a ha
    have hparked : k'.parked.get? a = k.parked.get? a := by rw [h.parked, if_neg ha]
    have herror : k'.errors.get? a = k.errors.get? a := by rw [h.errors, if_neg ha]
    cases hreader : (g.readersOf dropped).has a with
    | true =>
      have hstale := h.status_reader a hreader
      have hlive := (h.contains hg).1 (Graph.contains_of_status? hstale)
      exact .inr (booksOf_marked (hlive.resolve_left ha) hstale hparked herror (hpending a ha)
        h.forced)
    | false =>
      refine .inl ?_
      simp only [booksOf, Table.contains, h.status_kept hg ha hreader, hparked, herror,
        hpending a ha, h.forced]
  have hrest := AtRest.edit (fun a => (hk a).at_rest) hcoherent (.registered h)
  have hself : k'.parked.get? spec.id = none := by rw [h.parked, if_pos rfl]
  have hnone : k'.errors.get? spec.id = none := by rw [h.errors, if_pos rfl]
  refine hmoved.balanced hk
    { apart := fun hin => ?_
      forced_pending := fun _ => (h.pending spec.id).2 (.inl rfl)
      pending_live := fun _ => status_of_live ((h.contains hg).2 (.inl rfl))
      error_known := fun hsome => ?_
      refused := ?_
      at_rest := hrest spec.id
      idle := fun _ => hnone }
  · simp [booksOf, Table.contains, hself] at hin
  · simp [booksOf, hnone] at hsome
  · simp [booksOf, Table.contains, hself, hnone]

/-- A cell that is taken out of the next run. -/
theorem booksOf_unschedule (k : Kernel κ σ) (id a : CellId) : (k.unschedule id).booksOf a =
    if a = id then { k.booksOf a with pending := false, forced := false } else k.booksOf a := by
  have hremoved : ∀ s : OrderedSet CellId,
      (s.remove id).has a = if a = id then false else s.has a := by
    intro s
    rw [Bool.eq_iff_iff, OrderedSet.has_remove]
    by_cases ha : a = id <;> simp [ha]
  simp only [booksOf, unschedule, hremoved]
  split <;> rfl

theorem booksOf_park (k : Kernel κ σ) (spec : CellSpec) (conflict : Graph.Conflict) (a : CellId) :
    (k.park spec conflict).booksOf a =
      if a = spec.id then
        ⟨(k.removeFromGraph spec.id).graph.status? a, true, some (conflictError conflict), false,
          false⟩
      else (k.removeFromGraph spec.id).booksOf a := by
  -- whichever turn it has, the books do not show it
  have hbooked : ∀ turn turns, (({ k.removeFromGraph spec.id with
      parked := (k.removeFromGraph spec.id).parked.insert spec.id ⟨turn, spec⟩
      turns
      errors := (k.removeFromGraph spec.id).errors.insert spec.id (conflictError conflict) } :
      Kernel κ σ).unschedule spec.id).booksOf a =
        if a = spec.id then
          ⟨(k.removeFromGraph spec.id).graph.status? a, true, some (conflictError conflict),
            false, false⟩
        else (k.removeFromGraph spec.id).booksOf a := by
    intro turn turns
    rw [booksOf_unschedule]
    by_cases ha : a = spec.id <;> simp [ha, booksOf, Table.contains, Table.get?_insert]
  unfold Kernel.park
  dsimp only
  split
  · exact hbooked _ _
  · exact hbooked _ _

/-- A cell that is parked is not live, is not to be run, and has the conflict as its error. -/
theorem Balanced.park (hk : k.Balanced) (hcoherent : k.Coherent) (spec : CellSpec)
    (conflict : Graph.Conflict) : (k.park spec conflict).Balanced := by
  obtain ⟨hmoved, hout⟩ := removeFromGraph_moved hcoherent spec.id
  refine (hmoved.tail fun a ha => ?_).balanced hk ?_
  · rw [booksOf_park, if_neg ha]
  · rw [booksOf_park, if_pos rfl, hout]
    exact
      { apart := fun _ => rfl
        forced_pending := by simp
        pending_live := by simp
        error_known := fun _ => .inr rfl
        refused := by simp [conflictError, CellError.isMultipleDefinition]
        at_rest := by simp
        idle := by simp }

theorem Balanced.registerOne (hk : k.Balanced) (hcoherent : k.Coherent) (spec : CellSpec) :
    (k.registerOne spec).Balanced := by
  cases hchanged : k.isUnchanged spec with
  | true =>
    unfold Kernel.registerOne
    rw [if_pos hchanged]
    exact hk
  | false =>
    cases haccept : k.graph.register spec with
    | error conflict =>
      unfold Kernel.registerOne
      rw [hchanged, if_neg Bool.false_ne_true, haccept]
      exact hk.park hcoherent spec conflict
    | ok g =>
      obtain ⟨dropped, h⟩ := registerOne_registered (S := fun _ => True) hcoherent trivial
        hchanged haccept
      exact hk.registered hcoherent h

theorem Balanced.retry (hk : k.Balanced) (hcoherent : k.Coherent) (hwait : WaitFor S k)
    (id : CellId) : (k.retry id).Balanced := by
  cases hp : k.parked.get? id with
  | none =>
    unfold Kernel.retry
    rw [hp]
    exact hk
  | some p =>
    rcases retry_cases hcoherent hwait hp with ⟨g, h⟩ | ⟨h, -⟩
    · exact hk.registered hcoherent h
    · rw [h]
      exact hk

/-- What keeps the books sound for each element of a list keeps them so for all of it. -/
theorem Balanced.foldl {α : Type} {f : Kernel κ σ → α → Kernel κ σ} {items : List α}
    (hedits : ∀ k : Kernel κ σ, k.Coherent → WaitFor S k → ∀ i ∈ items,
      ReflTransGen (Edit S) k (f k i))
    (hf : ∀ k : Kernel κ σ, k.Coherent → WaitFor S k → k.Balanced → ∀ i ∈ items,
      (f k i).Balanced)
    (hcoherent : k.Coherent) (hwait : WaitFor S k) (hk : k.Balanced) :
    (items.foldl f k).Balanced := by
  induction items generalizing k with
  | nil => exact hk
  | cons first rest ih =>
    have hfirst := hedits k hcoherent hwait first (List.mem_cons_self ..)
    refine ih (fun k hc hw i hi => ?_) (fun k hc hw hk i hi => ?_)
      (coherent_of_edits hcoherent hfirst) (waitFor_of_edits hwait hfirst)
      (hf k hcoherent hwait hk first (List.mem_cons_self ..))
    · exact hedits k hc hw i (List.mem_cons_of_mem _ hi)
    · exact hf k hc hw hk i (List.mem_cons_of_mem _ hi)

theorem Balanced.retryParked (hk : k.Balanced) (hcoherent : k.Coherent) (hwait : WaitFor S k) :
    k.retryParked.Balanced :=
  hk.foldl (fun _ hc hw id _ => retry_edits hc hw id) (fun _ hc hw hk id _ => hk.retry hc hw id)
    hcoherent hwait

theorem Balanced.registerCells (hk : k.Balanced) (hcoherent : k.Coherent)
    (hwait : WaitFor (fun _ => True) k) (specs : List CellSpec) :
    (k.registerCells specs).Balanced := by
  have hregister : (specs.foldl Kernel.registerOne k).Balanced :=
    hk.foldl (fun _ hc _ spec _ => registerOne_edits hc trivial)
      (fun _ hc _ hk spec _ => hk.registerOne hc spec) hcoherent hwait
  have hedits : ReflTransGen (Edit fun _ => True) k (specs.foldl Kernel.registerOne k) :=
    foldl_edits (fun _ hc _ spec _ => registerOne_edits hc trivial) hcoherent hwait
  exact hregister.retryParked (coherent_of_edits hcoherent hedits)
    (waitFor_of_edits hwait hedits)

/-- A deleted cell leaves nothing in the books. -/
theorem Balanced.without (hk : k.Balanced) (hcoherent : k.Coherent) (id : CellId) :
    (k.without id).Balanced := by
  -- the cell is gone from the graph or from the parked cells; the other table did not have it
  have hgone : ∃ k₁ : Kernel κ σ, MovedAt k k₁ id ∧ k₁.graph.status? id = none ∧
      k₁.parked.contains id = false ∧
      (if k.parked.contains id then { k with parked := k.parked.erase id }
        else k.removeFromGraph id) = k₁ := by
    cases hparked : k.parked.contains id with
    | true =>
      refine ⟨{ k with parked := k.parked.erase id }, fun a ha => .inl ?_,
        (hk id).apart hparked, ?_, if_pos rfl⟩
      · simp [booksOf, Table.contains, Table.get?_erase, ha]
      · simp [Table.contains, Table.get?_erase]
    | false =>
      obtain ⟨hmoved, hout⟩ := removeFromGraph_moved hcoherent id
      refine ⟨_, hmoved, hout, ?_, if_neg Bool.false_ne_true⟩
      rw [parked_removeFromGraph hcoherent]
      exact hparked
  obtain ⟨k₁, hmoved, hout, hparked, heq⟩ := hgone
  have hbooks : ∀ a, (k.without id).booksOf a =
      if a = id then ⟨none, false, none, false, false⟩ else k₁.booksOf a := by
    intro a
    unfold Kernel.without
    rw [heq]
    refine (booksOf_unschedule { k₁ with errors := k₁.errors.erase id } id a).trans ?_
    by_cases ha : a = id
    · subst ha
      simp [booksOf, hout, hparked, Table.get?_erase]
    · simp [booksOf, ha, Table.get?_erase]
  refine (hmoved.tail fun a ha => ?_).balanced hk ?_
  · rw [hbooks, if_neg ha]
  · rw [hbooks, if_pos rfl]
    exact ⟨by simp, by simp, by simp, by simp, by simp, by simp, by simp⟩

theorem Balanced.deleteCell (hk : k.Balanced) (hcoherent : k.Coherent) (hwait : WaitFor S k)
    (h : k.deleteCell id = .ok k') : k'.Balanced := by
  have hedits : ReflTransGen (Edit S) k (k.without id) := without_edits hcoherent id
  rw [deleteCell_eq h]
  exact (hk.without hcoherent id).retryParked (coherent_of_edits hcoherent hedits)
    (waitFor_of_edits hwait hedits)

/-! ## §3. Requests. -/

/-- Only live cells are asked for. -/
theorem Balanced.asked (hk : k.Balanced) (h : Asked k k') : k'.Balanced := by
  intro a
  have hbooks : k'.booksOf a =
      { k.booksOf a with pending := k'.pending.has a, forced := k'.forced.has a } := by
    simp only [booksOf, h.graph, h.parked, h.errors]
  rw [hbooks]
  refine { hk a with forced_pending := fun hforced => ?_, pending_live := fun hpending => ?_ }
  · rcases h.forced a hforced with hforced | hpending
    · exact h.pending a ((hk a).forced_pending hforced)
    · exact hpending
  · rcases h.live a hpending with hpending | hlive
    · exact (hk a).pending_live hpending
    · exact status_of_live hlive

theorem Balanced.init (hk : k.Balanced) (initial : List (String × Binding)) :
    (k.init initial).Balanced := hk

/-- A reset keeps the conflicts of the cells that wait, and nothing else. -/
theorem Balanced.reset (hk : k.Balanced) : k.reset.Balanced := by
  have hbooks : ∀ a, k.reset.booksOf a =
      { k.booksOf a with
        status := (k.booksOf a).status.map fun _ => .idle
        error := (k.booksOf a).error.filter CellError.isMultipleDefinition
        pending := false
        forced := false } := by
    intro a
    obtain ⟨published, heq⟩ := reset_eq k
    rw [heq]
    simp [booksOf, Graph.status?_withStatus_ids, Table.get?_filter]
  intro a
  obtain ⟨hapart, -, -, hknown, hrefused, -, -⟩ := hk a
  rw [hbooks]
  generalize k.booksOf a = b at hapart hknown hrefused ⊢
  obtain ⟨status, parked, error, pending, forced⟩ := b
  dsimp only at hapart hknown hrefused ⊢
  cases status with
  | none =>
    refine ⟨fun _ => rfl, by simp, by simp, fun herror => ?_, ?_, by simp, by simp⟩
    · cases error with
      | none => simp at herror
      | some e => simpa using hknown rfl
    · cases error with
      | none => simpa using hrefused
      | some e => cases hm : e.isMultipleDefinition <;> simpa [hm] using hrefused
  | some s =>
    -- a live cell does not wait, and so its error was no conflict
    have hparked : parked = false := Bool.eq_false_iff.2 fun hin => by simpa using hapart hin
    subst hparked
    have herror : error.filter CellError.isMultipleDefinition = none := by
      cases error with
      | none => rfl
      | some e => simpa using hrefused
    rw [herror]
    exact ⟨by simp, by simp, by simp, by simp, by simp, by simp, fun _ => rfl⟩

/-- Nothing is to be run any more. -/
theorem Balanced.clearPending (hk : k.Balanced) : k.clearPending.Balanced := by
  intro a
  have hbooks : k.clearPending.booksOf a =
      { k.booksOf a with pending := false, forced := false } := rfl
  rw [hbooks]
  exact { hk a with forced_pending := by simp, pending_live := by simp }

variable [HashFunction]

/-- An event, whatever comes of it, keeps the books sound. -/
theorem Balanced.apply (hk : k.Balanced) (hcoherent : k.Coherent)
    (hwait : WaitFor (fun _ => True) k) (x : Executor κ σ) (event : Event) :
    (k.apply x event).2.Balanced := by
  cases event with
  | register specs => exact hk.registerCells hcoherent hwait specs
  | delete cell =>
    show (k.orUnchanged (k.deleteCell cell)).2.Balanced
    cases h : k.deleteCell cell with
    | ok k' => exact hk.deleteCell hcoherent hwait h
    | error e => exact hk
  | _ => exact hk.asked (apply_asked x hcoherent.wellFormed (by simp) (by simp))

/-! ## §4. Rounds. -/

omit [HashFunction] in
/-- The books while a round is still to come to the given cells: those cells are queued, and their
books are sound but for that. -/
def Due (ids : List CellId) (k : Kernel κ σ) : Prop :=
  ∀ a, (k.booksOf a).marked.Sound ∧ (a ∉ ids → (k.booksOf a).Sound)

omit [HashFunction] in
theorem due_nil : Due [] k ↔ k.Balanced :=
  ⟨fun h a => (h a).2 List.not_mem_nil, fun hk a => ⟨(hk a).marked, fun _ => hk a⟩⟩

namespace Due

variable {c : Cell} {rest : List CellId} {now : CellStatus} {error : Option CellError}
  {outputs : Table String Binding}

omit [HashFunction] in
/-- The books of the next cell become sound. -/
theorem next (h : Due (c.id :: rest) k) (hself : (k'.booksOf c.id).Sound)
    (hother : ∀ a, a ≠ c.id → k'.booksOf a = k.booksOf a) : Due rest k' := by
  intro a
  by_cases ha : a = c.id
  · rw [ha]
    exact ⟨hself.marked, fun _ => hself⟩
  · rw [hother a ha]
    exact ⟨(h a).1, fun hnot => (h a).2 (by simp [ha, hnot])⟩

omit [HashFunction] in
theorem settled (h : Due (c.id :: rest) k) (hc : k.graph.cell? c.id = some c)
    (hsettled : Settled k k' c now error outputs) (hnow : now ≠ .queued ∧ now ≠ .running)
    (hidle : now = .idle → error = none)
    (herror : error.any CellError.isMultipleDefinition = false) : Due rest k' := by
  have hbooks : ∀ a, k'.booksOf a =
      if a = c.id then { k.booksOf a with status := some now, error } else k.booksOf a := by
    intro a
    unfold booksOf
    rw [hsettled.status, hsettled.errors, hsettled.parked, hsettled.pending, hsettled.forced]
    split <;> rfl
  refine h.next ?_ fun a ha => ?_
  · rw [hbooks, if_pos rfl]
    exact (h c.id).1.ended (status_of_live (Graph.contains_of_cell? hc)) hnow hidle herror
  · rw [hbooks, if_neg ha]

omit [HashFunction] in
/-- When the run is to stop, the next cell is marked only. -/
theorem passed (h : Due (c.id :: rest) k) (hc : k.graph.cell? c.id = some c) :
    Due rest (k.setStatus c.id .stale) := by
  have hstatus := status?_setStatus_of_live hc .stale
  refine h.next ?_ fun a ha => ?_
  · have hbooks : (k.setStatus c.id .stale).booksOf c.id = (k.booksOf c.id).marked :=
      booksOf_marked (Graph.contains_of_cell? hc) ((hstatus c.id).trans (if_pos rfl)) rfl rfl rfl
        rfl
    rw [hbooks]
    exact (h c.id).1
  · show Books.mk ((k.graph.setStatus c.id .stale).status? a) _ _ _ _ = _
    rw [hstatus, if_neg ha]
    rfl

/-- Coming to the next cell, whether or not the run is to stop. -/
theorem visit {r : Round κ σ} (x : Executor κ σ) (forced : OrderedSet CellId)
    (h : Due (c.id :: rest) r.kernel) (hc : r.kernel.graph.cell? c.id = some c) :
    Due rest (r.visit x forced c.id).kernel := by
  cases hrun : r.kernel.session.aborted with
  | true =>
    rw [kernel_visit_aborted x forced c.id hrun]
    exact h.passed hc
  | false =>
    have hvisited := visit_cases x forced hc hrun
    generalize r.visit x forced c.id = r' at hvisited ⊢
    cases hvisited with
    | skipped _ hsettled _ => exact h.settled hc hsettled (by simp) (by simp) rfl
    | executed _ _ hsettled => exact h.settled hc hsettled (by simp) (fun _ => rfl) rfl
    | cached _ _ hsettled => exact h.settled hc hsettled (by simp) (fun _ => rfl) rfl
    | failed _ _ hsettled => exact h.settled hc hsettled (by simp) (by simp) rfl

theorem visits {r : Round κ σ} (x : Executor κ σ) (forced : OrderedSet CellId)
    {ids : List CellId} (h : Due ids r.kernel)
    (hlive : ∀ id ∈ ids, r.kernel.graph.contains id = true) :
    (ids.foldl (Round.visit x forced) r).kernel.Balanced := by
  induction ids generalizing r with
  | nil => exact due_nil.1 h
  | cons first rest ih =>
    obtain ⟨c, hc⟩ := Option.isSome_iff_exists.1 (hlive first (List.mem_cons_self ..))
    obtain rfl := Graph.cell?_id hc
    obtain ⟨hundisturbed, -⟩ := visit_status x forced hc
    refine ih (h.visit x forced hc) fun id hid => ?_
    rw [Graph.contains_congr hundisturbed.shape]
    exact hlive id (List.mem_cons_of_mem _ hid)

end Due

omit [HashFunction] in
/-- A blocked cell fails, and with no conflict. -/
theorem Balanced.block {r : Round κ σ} {c : Cell} (hk : r.kernel.Balanced)
    (hc : r.kernel.graph.cell? c.id = some c) (reason : BlockReason) :
    (r.block c.id reason).kernel.Balanced := by
  have hdue : Due [c.id] r.kernel := fun a => ⟨(hk a).marked, fun _ => hk a⟩
  refine due_nil.1 ?_
  cases reason with
  | inCycle cycle =>
    exact hdue.settled hc (failCell_settled hc rfl .error (.cycle cycle)) (by simp) (by simp) rfl
  | downstreamOf ancestor =>
    exact hdue.settled hc (failCell_settled hc rfl .stale (.ancestorBlocked ancestor)) (by simp)
      (by simp) rfl

omit [HashFunction] in
theorem Balanced.blocks (blocked : List (CellId × BlockReason)) {r : Round κ σ}
    (hk : r.kernel.Balanced) (hlive : ∀ b ∈ blocked, r.kernel.graph.contains b.1 = true) :
    (blocked.foldl (fun r b => r.block b.1 b.2) r).kernel.Balanced := by
  induction blocked generalizing r with
  | nil => exact hk
  | cons b blocked ih =>
    obtain ⟨id, reason⟩ := b
    obtain ⟨c, hc⟩ := Option.isSome_iff_exists.1 (hlive _ (List.mem_cons_self ..))
    obtain rfl := Graph.cell?_id hc
    obtain ⟨⟨e, hsettled⟩, -⟩ := block_settled hc reason
    refine ih (hk.block hc reason) fun b hb => ?_
    rw [Graph.contains_congr hsettled.shape]
    exact hlive b (List.mem_cons_of_mem _ hb)

omit [HashFunction] in
theorem Balanced.queue (hk : k.Balanced) (ids : List CellId) :
    Due ids (ids.foldl (fun k id => k.setStatus id .queued) k) := by
  obtain ⟨published, heq⟩ := setStatusAll_eq k .queued ids
  rw [heq]
  have hstatus := Graph.status?_withStatus k.graph .queued ids
  intro a
  by_cases ha : a ∈ ids
  · refine ⟨?_, absurd ha⟩
    have hbooks : (({ k with graph := k.graph.withStatus .queued ids, published } :
        Kernel κ σ).booksOf a).marked = (k.booksOf a).marked := by
      simp only [Books.marked, booksOf, hstatus, if_pos ha, Option.map_map, Function.comp_def]
    rw [hbooks]
    exact (hk a).marked
  · have hbooks : ({ k with graph := k.graph.withStatus .queued ids, published } :
        Kernel κ σ).booksOf a = k.booksOf a := by
      simp only [booksOf, hstatus, if_neg ha]
    rw [hbooks]
    exact ⟨(hk a).marked, fun _ => hk a⟩

/-- A round, stopped or not, leaves the books sound. -/
theorem Balanced.round (hk : k.Balanced) (hg : k.graph.WellFormed) (x : Executor κ σ)
    (roots forced : OrderedSet CellId) (report : RunReport) :
    (k.runOnce x roots forced report).2.Balanced := by
  have hbegin := underway_readied hg roots
  have hblocked := Balanced.blocks (k.graph.plan roots).blocked (r := { kernel := k, report := {} })
    hk fun b hb => Graph.contains_of_mem_descendants
      ((plan_perm hg roots).mem_iff.1 (List.mem_append_left _ (List.mem_map_of_mem hb)))
  have hready : Due (k.graph.plan roots).order (k.readied roots {}).kernel := hblocked.queue _
  have hover : (k.visitedAll x roots forced).Balanced :=
    hready.visits x forced fun _ => hbegin.live_now
  exact hover.asked (runOnce_asked hg x roots forced report)

end Kernel

end Notebook
