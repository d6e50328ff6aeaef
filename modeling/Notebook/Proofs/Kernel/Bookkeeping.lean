/-
  Notebook.Proofs.Kernel.Bookkeeping — no operation leaves a ghost behind.

  A registration waits because one of its public names is taken.  One pass over the parked cells is
  enough to see to this: it only adds definitions, so what was taken stays taken.  With the books of
  every cell sound, that makes up all that holds of the tables of a kernel between two operations.

  Main results:
    * `retryParked_waiting` — no registration is left waiting that could succeed,
    * `commandAll?_bookkept` — the tables fit together after every operation.
-/
import Notebook.Proofs.Kernel.Books
import Notebook.Proofs.Kernel.Containment

namespace Notebook

open Relation

namespace Kernel

variable {κ σ : Type} {k k' : Kernel κ σ} {id : CellId} {S : CellSpec → Prop} {spec : CellSpec}

/-! ## §1. Waiting for a name. -/

theorem mem_parkedInTurn : id ∈ k.parkedInTurn ↔ k.parked.contains id = true := by
  unfold parkedInTurn
  simp only [List.mem_map, List.mem_mergeSort, Prod.exists, exists_eq_right]
  constructor
  · rintro ⟨turn, id', p, hp, heq⟩
    obtain ⟨-, rfl⟩ := Prod.mk.inj heq
    simp [Table.contains, (Table.get?_eq_some_iff _).2 hp]
  · intro hin
    obtain ⟨p, hp⟩ := Option.isSome_iff_exists.1 hin
    exact ⟨p.turn, id, p, (Table.get?_eq_some_iff _).1 hp, rfl⟩

/-- Every registration that waits has a name that is taken. -/
def Waiting (k : Kernel κ σ) : Prop :=
  ∀ id p, k.parked.get? id = some p → k.graph.Taken p.spec

theorem Waiting.congr (hk : k.Waiting) (hshape : k'.graph.shape = k.graph.shape)
    (hparked : k'.parked = k.parked) : k'.Waiting := by
  intro id p hp
  rw [hparked] at hp
  exact (hk id p hp).congr hshape.symm

theorem Waiting.asked (hk : k.Waiting) (h : Asked k k') : k'.Waiting :=
  hk.congr (congrArg Graph.shape h.graph) h.parked

/-- A cell that enters the graph takes names and gives up none. -/
theorem Registered.taken {g : Graph} {dropped : List String} {s : CellSpec}
    (h : Registered S k k' spec g dropped) (hg : k.graph.WellFormed)
    (hout : k.graph.contains spec.id = false) (htaken : k.graph.Taken s) : k'.graph.Taken s := by
  obtain ⟨name, owner, hdef, hpub, hne, c, hc, hcdef⟩ := htaken
  have howner : owner ≠ spec.id := by
    rintro rfl
    rw [Graph.contains_of_cell? hc] at hout
    cases hout
  refine Graph.Taken.congr h.shape.symm ⟨name, owner, hdef, ?_, hne, c, ?_, hcdef⟩
  · unfold Graph.isPrivate
    rw [(Graph.register_ok hg h.accepted).2.1]
    exact hpub
  · rw [Graph.cell?_register hg h.accepted, if_neg howner]
    exact hc

/-- What still has to be tried again, and what waits with good reason: after the last of the cells
that are tried nothing else is left. -/
theorem retries_waiting {ids : List CellId} (hcoherent : k.Coherent) (hwait : WaitFor S k)
    (htaken : ∀ id p, k.parked.get? id = some p → id ∉ ids → k.graph.Taken p.spec) :
    (ids.foldl retry k).Waiting := by
  induction ids generalizing k with
  | nil => exact fun id p hp => htaken id p hp List.not_mem_nil
  | cons first rest ih =>
    have hedits := retry_edits hcoherent hwait first
    refine ih (coherent_of_edits hcoherent hedits) (waitFor_of_edits hwait hedits) ?_
    intro id p hp hnot
    cases hfirst : k.parked.get? first with
    | none =>
      have hsame : k.retry first = k := by simp only [retry, hfirst]
      rw [hsame] at hp ⊢
      have hne : id ≠ first := by
        rintro rfl
        simp [hfirst] at hp
      exact htaken id p hp (by simp [hne, hnot])
    | some q =>
      rcases retry_cases hcoherent hwait hfirst with ⟨g, h⟩ | ⟨hsame, hrefused⟩
      · -- the first one has its place now, and the others wait as before
        have hspec := (hwait first q hfirst).1
        rw [h.parked] at hp
        split at hp
        · cases hp
        · rename_i hne
          rw [hspec] at hne
          have hout := hcoherent.parked_not_live first (by simp [Table.contains, hfirst])
          rw [← hspec] at hout
          exact h.taken hcoherent.wellFormed hout (htaken id p hp (by simp [hne, hnot]))
      · rw [hsame] at hp ⊢
        by_cases hne : id = first
        · subst hne
          obtain rfl := Option.some.inj (hfirst.symm.trans hp)
          exact (Graph.taken_iff hcoherent.wellFormed).2 hrefused
        · exact htaken id p hp (by simp [hne, hnot])

/-- After one pass over the parked cells, whatever had been taken or given up before, no
registration is left that could succeed. -/
theorem retryParked_waiting (hcoherent : k.Coherent) (hwait : WaitFor S k) :
    k.retryParked.Waiting :=
  retries_waiting hcoherent hwait fun _ _ hp hnot =>
    absurd (mem_parkedInTurn.2 (by simp [Table.contains, hp])) hnot

variable [HashFunction]

/-! ## §2. Whatever is asked of a kernel. -/

omit [HashFunction] in
/-- A new kernel has empty books. -/
theorem Balanced.start {config : Config} {disk : Disk} {clock : Nat} {own : σ}
    (h : Kernel.start config disk clock own = .ok k) : k.Balanced := by
  obtain ⟨-, cache, heq⟩ := start_eq h
  rw [heq]
  intro a
  have hbooks : ∀ k : Kernel κ σ, k.graph.cells = [] → k.parked = .empty → k.errors = .empty →
      k.pending = .empty → k.forced = .empty → k.booksOf a = ⟨none, false, none, false, false⟩ := by
    intro k hcells hparked herrors hpending hforced
    have hstatus : k.graph.status? a = none := by simp [Graph.status?, Graph.cell?, hcells]
    unfold booksOf
    rw [hstatus, hparked, herrors, hpending, hforced]
    rfl
  rw [hbooks _ rfl rfl rfl rfl rfl]
  exact ⟨by simp, by simp, by simp, by simp, by simp, by simp, by simp⟩

namespace Reachable

variable {x : Executor κ σ}

/-- The books of every kernel that is reached are sound. -/
theorem balanced (h : Reachable x k) : k.Balanced := by
  induction h with
  | start h => exact .start h
  | init initial _ ih => exact ih.init initial
  | reset _ ih => exact ih.reset
  | apply event h ih => exact ih.apply h.inOrder.toCoherent h.inOrder.waitFor x event
  | scheduleWrites h ih => exact ih.asked (.scheduleWrites h.inOrder.wellFormed)
  | clearPending _ ih => exact ih.clearPending
  | round roots forced report h ih => exact ih.round h.inOrder.wellFormed x roots forced report
  | host s _ ih => exact ih

/-- No kernel that is reached has a registration waiting that could succeed. -/
theorem waiting (h : Reachable x k) : k.Waiting := by
  induction h with
  | start h =>
    obtain ⟨-, cache, heq⟩ := start_eq h
    rw [heq]
    intro id p hp
    cases hp
  | init initial _ ih => exact ih
  | @reset k _ ih =>
    obtain ⟨published, heq⟩ := reset_eq k
    rw [heq]
    exact ih.congr (Graph.shape_withStatus ..) rfl
  | @apply k event h ih =>
    have hcoherent := h.inOrder.toCoherent
    have hwait := h.inOrder.waitFor
    -- registering and deleting end with a pass over the parked cells; the others only ask
    cases event with
    | register specs =>
      have hedits : ReflTransGen (Edit fun _ => True) k (specs.foldl Kernel.registerOne k) :=
        foldl_edits (fun _ hc _ spec _ => registerOne_edits hc trivial) hcoherent hwait
      exact retryParked_waiting (coherent_of_edits hcoherent hedits)
        (waitFor_of_edits hwait hedits)
    | delete cell =>
      show (k.orUnchanged (k.deleteCell cell)).2.Waiting
      cases hdeleted : k.deleteCell cell with
      | error e => exact ih
      | ok k' =>
        have hedits : ReflTransGen (Edit fun _ => True) k (k.without cell) :=
          without_edits hcoherent cell
        show k'.Waiting
        rw [deleteCell_eq hdeleted]
        exact retryParked_waiting (coherent_of_edits hcoherent hedits)
          (waitFor_of_edits hwait hedits)
    | _ => exact ih.asked (apply_asked x hcoherent.wellFormed (by simp) (by simp))
  | scheduleWrites h ih => exact ih.asked (.scheduleWrites h.inOrder.wellFormed)
  | clearPending _ ih => exact ih
  | round roots forced report h ih =>
    have hg := h.inOrder.wellFormed
    obtain ⟨hundisturbed, -⟩ := visitedAll_status hg x roots forced
    exact (ih.congr hundisturbed.shape hundisturbed.parked).asked
      (runOnce_asked hg x roots forced report)
  | host s _ ih => exact ih

end Reachable

/-- What can be asked of a kernel, and what whoever hosts it may do to the session in between. -/
inductive Command (κ σ : Type) where
  | init (initial : List (String × Binding))
  | reset
  | apply (event : Event)
  /-- Run what is pending, in at most that many rounds. -/
  | runUntilIdle (rounds : Nat)
  | host (session : Session κ σ)

/-- Carries out one command; nothing comes of a run that takes more rounds. -/
def command? (x : Executor κ σ) (k : Kernel κ σ) : Command κ σ → Option (Kernel κ σ)
  | .init initial => some (k.init initial)
  | .reset => some k.reset
  | .apply event => some (k.apply x event).2
  | .runUntilIdle rounds => (k.runUntilIdle? x rounds).map (·.2)
  | .host session => some { k with session }

/-- Carries out commands, one after another. -/
def commandAll? (x : Executor κ σ) (k : Kernel κ σ) (commands : List (Command κ σ)) :
    Option (Kernel κ σ) := commands.foldlM (command? x) k

theorem Reachable.commandAll? {x : Executor κ σ} {commands : List (Command κ σ)}
    (h : Reachable x k) (hrun : k.commandAll? x commands = some k') : Reachable x k' := by
  induction commands generalizing k with
  | nil =>
    obtain rfl := Option.some.inj hrun
    exact h
  | cons first rest ih =>
    obtain ⟨k₁, hfirst, hrest⟩ := Option.bind_eq_some_iff.1 hrun
    refine ih ?_ hrest
    cases first with
    | init initial =>
      obtain rfl := Option.some.inj hfirst
      exact h.init initial
    | reset =>
      obtain rfl := Option.some.inj hfirst
      exact h.reset
    | apply event =>
      obtain rfl := Option.some.inj hfirst
      exact h.apply event
    | runUntilIdle rounds =>
      obtain ⟨⟨report, k₂⟩, hran, rfl⟩ := Option.map_eq_some_iff.1 hfirst
      exact h.runUntilIdle? hran
    | host session =>
      obtain rfl := Option.some.inj hfirst
      exact h.host session

/-- The tables of a kernel fit together. -/
structure Bookkept (k : Kernel κ σ) : Prop where
  /-- No cell is both live and parked. -/
  apart : ∀ id, ¬ (k.graph.contains id = true ∧ k.parked.contains id = true)
  /-- A parked cell has a public name that another live cell defines. -/
  taken : ∀ id p, k.parked.get? id = some p → p.spec.id = id ∧ k.graph.Taken p.spec
  /-- So no registration is left waiting that could succeed. -/
  refused : ∀ id p, k.parked.get? id = some p →
    ∃ conflict, k.graph.register p.spec = .error conflict
  forced_pending : ∀ id, k.forced.has id = true → k.pending.has id = true
  pending_live : ∀ id, k.pending.has id = true → k.graph.contains id = true
  error_known : ∀ id e, k.errors.get? id = some e →
    k.graph.contains id = true ∨ k.parked.contains id = true
  parked_iff : ∀ id, k.parked.contains id = true ↔
    ∃ name cells, k.errors.get? id = some (.multipleDefinition name cells)
  at_rest : ∀ id, k.graph.status? id ≠ some .queued ∧ k.graph.status? id ≠ some .running
  idle : ∀ id, k.graph.status? id = some .idle → k.errors.get? id = none

/-- Sound books, and names taken for all that wait, are all of it. -/
theorem Reachable.bookkept {x : Executor κ σ} (h : Reachable x k) : k.Bookkept := by
  have hbooks := h.balanced
  have hg := h.inOrder.wellFormed
  refine
    { apart := ?_
      taken := fun id p hp => ⟨(h.inOrder.waitFor id p hp).1, h.waiting id p hp⟩
      refused := fun id p hp => (Graph.taken_iff hg).1 (h.waiting id p hp)
      forced_pending := fun id => (hbooks id).forced_pending
      pending_live := fun id hid => live_of_status ((hbooks id).pending_live hid)
      error_known := ?_
      parked_iff := ?_
      at_rest := fun id => (hbooks id).at_rest
      idle := fun id => (hbooks id).idle }
  · rintro id ⟨hlive, hparked⟩
    have hnone := (hbooks id).apart hparked
    have hsome := status_of_live hlive
    rw [hnone] at hsome
    cases hsome
  · intro id e he
    refine ((hbooks id).error_known ?_).imp_left live_of_status
    show (k.errors.get? id).isSome = true
    rw [he]
    rfl
  · intro id
    refine (hbooks id).refused.trans ?_
    show (k.errors.get? id).any _ = true ↔ _
    cases k.errors.get? id with
    | none => simp
    | some e => cases e <;> simp [CellError.isMultipleDefinition]

/-- After any operations on a new kernel, in any order and with any executor, whether or not a run
is stopped, the tables fit together. -/
theorem commandAll?_bookkept (x : Executor κ σ) {config : Config} {disk : Disk} {clock : Nat}
    {own : σ} {k₀ : Kernel κ σ} (hstart : Kernel.start config disk clock own = .ok k₀)
    {commands : List (Command κ σ)} (hrun : k₀.commandAll? x commands = some k) :
    k.Bookkept :=
  ((Reachable.start hstart).commandAll? hrun).bookkept

end Kernel

/-! ## §3. Waiting in line. -/

/-- Cell 2 waits for the name that cell 0 defines, and cell 1 is edited so that it waits as well.
When cell 0 goes, the name falls to cell 2. -/
def Kernel.waitingInLine : List (Kernel.Command Unit Unit) :=
  [.apply (.register [⟨⟨0⟩, "x = 1", .ofList ["x"], .empty⟩,
      ⟨⟨1⟩, "y = x", .ofList ["y"], .ofList ["x"]⟩]),
    .runUntilIdle 2,
    .apply (.register [⟨⟨2⟩, "x = 2", .ofList ["x"], .empty⟩,
      ⟨⟨1⟩, "x = y = 3", .ofList ["x", "y"], .empty⟩]),
    .apply (.delete ⟨0⟩),
    .runUntilIdle 2]

theorem Kernel.waitingInLine_bookkept :
    let _ := Sha256.hashFunction
    ∃ k₀ k : Kernel Unit Unit, Kernel.start { cellCache := false } {} 0 () = .ok k₀ ∧
      k₀.commandAll? .refuser waitingInLine = some k ∧ k.parked.contains ⟨1⟩ = true ∧
      k.graph.status? ⟨2⟩ = some .idle ∧ k.Bookkept := by
  intro _
  let k₀ : Kernel Unit Unit := { config := { cellCache := false }, session := { own := () } }
  have hstart : Kernel.start { cellCache := false } {} 0 () = .ok k₀ := rfl
  have hend : (k₀.commandAll? .refuser waitingInLine).map (fun k =>
      (k.parked.contains ⟨1⟩, k.graph.status? ⟨2⟩)) = some (true, some .idle) := by cbv
  obtain ⟨k, hrun, hk⟩ := Option.map_eq_some_iff.1 hend
  obtain ⟨hparked, hstatus⟩ := Prod.mk.inj hk
  exact ⟨k₀, k, hstart, hrun, hparked, hstatus, commandAll?_bookkept .refuser hstart hrun⟩

end Notebook
