/-
  Notebook.Proofs.Kernel.Conflicts — what the error of a parked cell points at.

  A registration is refused with all names in conflict and their definers.  The error that is kept
  names the first of these names, and lists the definers of all of them.  It is not written again
  while the cell waits, whatever becomes of the cells it lists.  So what it says is what some refusal
  said, and it points at the definer of the name exactly when it lists that cell alone.

  Main results:
    * `Refused.names` — what the error of a refusal says,
    * `runOnce_errors_outside` — a round leaves the errors of cells alone that are not live,
    * `Reachable.explained` — every parked cell has the error of a refusal,
    * `commandAll?_conflicts` — when all cells that are listed define the name,
    * `Kernel.torn_points_beside` — an error that lists a cell which does not define the name.
-/
import Notebook.Proofs.Kernel.Bookkeeping
import Notebook.Proofs.Kernel.Privacy

namespace Notebook

open Relation

namespace Kernel

variable {κ σ : Type} {k k' : Kernel κ σ} {a id : CellId} {S : CellSpec → Prop} {spec : CellSpec}

/-! ## §1. Refusals. -/

/-- The error of a refusal names a public definition of the cell, and lists other cells, each of
them once. -/
theorem Refused.names {marker : String} {e : CellError} (h : Refused spec marker e) :
    ∃ name cells, e = .multipleDefinition name cells ∧ spec.defs.has name = true ∧
      isPrivateName marker name = false ∧ cells ≠ [] ∧ cells.Nodup ∧ spec.id ∉ cells := by
  obtain ⟨g, conflict, hg, rfl, hrefused, rfl⟩ := h
  obtain ⟨rfl, hsome⟩ := Graph.register_error_iff.1 hrefused
  let owners := (OrderedSet.ofList ((g.conflicts spec).map (·.2))).toList
  have howners : ∀ d, d ∈ owners ↔ ∃ name, (name, d) ∈ g.conflicts spec := by
    simp [owners, OrderedSet.mem_toList]
  obtain ⟨⟨name, owner⟩, rest, hfirst⟩ := List.exists_cons_of_ne_nil hsome
  have hin : (name, owner) ∈ g.conflicts spec := by
    rw [hfirst]
    exact List.mem_cons_self
  obtain ⟨hdef, hpub, -⟩ := (Graph.mem_conflicts hg).1 hin
  have hname : conflictError ⟨spec.id, g.conflicts spec⟩ = .multipleDefinition name owners := by
    simp only [conflictError, owners, hfirst]
    rfl
  have hself : spec.id ∉ owners := by
    intro hmem
    obtain ⟨other, hother⟩ := (howners _).1 hmem
    exact ((Graph.mem_conflicts hg).1 hother).2.2.1 rfl
  exact ⟨name, owners, hname, hdef, hpub, List.ne_nil_of_mem ((howners owner).2 ⟨name, hin⟩),
    OrderedSet.toList_nodup _, hself⟩

/-! ## §2. The error of a parked cell. -/

/-- Every cell that waits has the error of a refusal. -/
def Explained (k : Kernel κ σ) : Prop :=
  ∀ id p, k.parked.get? id = some p →
    ∃ e, k.errors.get? id = some e ∧ Refused p.spec k.graph.privateMarker e

namespace Explained

/-- It is enough to see to the cells that wait. -/
theorem congr (h : k.Explained) (hmarker : k'.graph.privateMarker = k.graph.privateMarker)
    (hparked : k'.parked = k.parked)
    (herrors : ∀ id p, k.parked.get? id = some p → k'.errors.get? id = k.errors.get? id) :
    k'.Explained := by
  intro id p hp
  rw [hparked] at hp
  rw [herrors id p hp, hmarker]
  exact h id p hp

theorem asked (h : k.Explained) (ha : Asked k k') : k'.Explained :=
  h.congr (by rw [ha.graph]) ha.parked fun _ _ _ => by rw [ha.errors]

/-- A cell that is parked is given the error of its refusal, and no edit touches the error of another
cell that waits. -/
theorem edit (h : k.Explained) (hg : k.graph.WellFormed) (hstep : Edit S k k') : k'.Explained := by
  have hmarker := hstep.marker hg
  cases hstep with
  | removed hr => exact h.congr hmarker hr.parked fun _ _ _ => by rw [hr.errors]
  | @noted id hn =>
    intro a p hp
    rw [hmarker]
    by_cases ha : a = id
    · subst ha
      rcases hn.explained p hp with ⟨hbefore, hsame⟩ | hrefused
      · rw [hsame]
        exact h a p hbefore
      · exact hrefused
    · rw [hn.parked a ha] at hp
      rw [hn.errors a ha]
      exact h a p hp
  | @registered spec g dropped hr =>
    intro a p hp
    rw [hmarker]
    rw [hr.parked] at hp
    split at hp
    · cases hp
    · rename_i hne
      rw [hr.errors, if_neg hne]
      exact h a p hp

theorem edits (h : k.Explained) (hk : k.Coherent) (hchain : ReflTransGen (Edit S) k k') :
    k'.Explained := by
  induction hchain with
  | refl => exact h
  | tail hchain hstep ih => exact ih.edit (coherent_of_edits hk hchain).wellFormed hstep

/-- A reset forgets the errors of runs and keeps those of refusals. -/
theorem reset (h : k.Explained) : k.reset.Explained := by
  obtain ⟨published, heq⟩ := reset_eq k
  rw [heq]
  refine h.congr (Graph.privateMarker_congr (Graph.shape_withStatus ..)) rfl fun id p hp => ?_
  obtain ⟨e, he, hrefused⟩ := h id p hp
  obtain ⟨name, cells, rfl, -⟩ := hrefused.names
  refine (Table.get?_filter ..).trans ?_
  rw [he]
  rfl

end Explained

variable [HashFunction] {x : Executor κ σ}

/-! ## §3. Rounds. -/

omit [HashFunction] in
theorem failCell_errors_other (k : Kernel κ σ) (hne : a ≠ id) (now : CellStatus) (e : CellError) :
    (k.failCell id now e).errors.get? a = k.errors.get? a := by
  unfold failCell
  simp only [unbindAll_eq]
  exact (Table.get?_insert k.errors id e a).trans (if_neg hne)

theorem runCell_errors_other (k : Kernel κ σ) (x : Executor κ σ) (hne : a ≠ id) (forced : Bool) :
    (k.runCell x id forced).2.errors.get? a = k.errors.get? a := by
  cases hc : k.graph.cell? id with
  | none => simp [runCell, hc]
  | some c =>
    obtain rfl := Graph.cell?_id hc
    rw [runCell_live x forced hc]
    rcases runLive_settled x forced hc with ⟨output, -, h⟩ | ⟨text, -, h⟩
    · rw [h.errors, if_neg hne]
    · rw [h.errors, if_neg hne]

/-- A round gives errors to the cells that it comes to, and these are live. -/
theorem runOnce_errors_outside (hg : k.graph.WellFormed) (x : Executor κ σ)
    (roots forced : OrderedSet CellId) (report : RunReport)
    (hout : k.graph.contains a = false) :
    (k.runOnce x roots forced report).2.errors.get? a = k.errors.get? a := by
  have hbegin := underway_readied hg roots
  have hplanned : ∀ id ∈ (k.graph.plan roots).blocked.map (·.1) ++ (k.graph.plan roots).order,
      a ≠ id := by
    rintro id hid rfl
    rw [(plan_perm hg roots).mem_iff] at hid
    rw [Graph.contains_of_mem_descendants hid] at hout
    cases hout
  have hready : (k.readied roots {}).kernel.errors.get? a = k.errors.get? a :=
    hbegin.outside_errors a (fun hin => hplanned a (List.mem_append_left _ hin) rfl)
      fun hin => hplanned a (List.mem_append_right _ hin) rfl
  have hvisited : (k.visitedAll x roots forced).errors.get? a = k.errors.get? a := by
    have hne : ∀ id ∈ (k.graph.plan roots).order, a ≠ id :=
      fun id hid => hplanned id (List.mem_append_right _ hid)
    exact visits_keep (P := fun k' => k'.errors.get? a = k.errors.get? a) (fun _ _ _ h => h)
      (fun k' id hid now e h => (failCell_errors_other k' (hne id hid) now e).trans h)
      (fun k' id hid forced h => (runCell_errors_other k' x (hne id hid) forced).trans h)
      forced hready
  rw [(runOnce_asked hg x roots forced report).errors, hvisited]

/-! ## §4. Histories. -/

namespace Reachable

/-- **Every parked cell has the error of a refusal**, though it may be long ago. -/
theorem explained (h : Reachable x k) : k.Explained := by
  induction h with
  | start h =>
    obtain ⟨-, cache, heq⟩ := start_eq h
    rw [heq]
    intro id p hp
    cases hp
  | init initial _ ih => exact ih
  | reset _ ih => exact ih.reset
  | apply event h ih =>
    rcases apply_cases x event h.inOrder.toCoherent h.inOrder.waitFor with hedits | hasked
    · exact ih.edits h.inOrder.toCoherent hedits
    · exact ih.asked hasked
  | scheduleWrites h ih => exact ih.asked (.scheduleWrites h.inOrder.wellFormed)
  | clearPending _ ih => exact ih
  | @round k roots forced report h ih =>
    have hg := h.inOrder.wellFormed
    have hasked := runOnce_asked hg x roots forced report
    obtain ⟨hundisturbed, -⟩ := visitedAll_status hg x roots forced
    refine ih.congr ?_ (hasked.parked.trans hundisturbed.parked) fun id p hp => ?_
    · rw [hasked.graph]
      exact Graph.privateMarker_congr hundisturbed.shape
    · have hparked : k.parked.contains id = true := by simp [Table.contains, hp]
      exact runOnce_errors_outside hg x roots forced report
        (h.inOrder.parked_not_live id hparked)
  | host s _ ih => exact ih

end Reachable

omit [HashFunction] in
/-- Of the cells that are listed with a public name all define it exactly when there is just one, and
it is the definer of the name. -/
theorem all_define_iff (hg : k.graph.WellFormed) {name : String} {cells : List CellId}
    (hpub : k.graph.isPrivate name = false) (hsome : cells ≠ []) (hnodup : cells.Nodup) :
    (∀ d ∈ cells, k.Defines d name) ↔ ∃ d, cells = [d] ∧ k.graph.definer? name = some d := by
  have hdefiner : ∀ d, k.graph.definer? name = some d ↔ k.Defines d name := by
    intro d
    rw [Graph.definer?_eq_some_iff hg]
    exact and_iff_right hpub
  constructor
  · intro hall
    obtain ⟨d, rest, rfl⟩ := List.exists_cons_of_ne_nil hsome
    have hd := (hdefiner d).2 (hall d List.mem_cons_self)
    refine ⟨d, congrArg (d :: ·) (List.eq_nil_iff_forall_not_mem.2 fun b hb => ?_), hd⟩
    -- a public name has one definer, and no cell is listed twice
    have hb' := (hdefiner b).2 (hall b (List.mem_cons_of_mem _ hb))
    obtain rfl := Option.some.inj (hd.symm.trans hb')
    exact (List.nodup_cons.1 hnodup).1 hb
  · rintro ⟨d, rfl, hd⟩ b hb
    obtain rfl := List.mem_singleton.1 hb
    exact (hdefiner b).1 hd

/-- **What the error of a parked cell points at.**  After any operations on a new kernel, the error
of every parked cell names one of its public definitions and lists other cells.  All of them are live
and define the name exactly when a single cell is listed, and it is the definer of the name now. -/
theorem commandAll?_conflicts (x : Executor κ σ) {config : Config} {disk : Disk} {clock : Nat}
    {own : σ} {k₀ : Kernel κ σ} (hstart : Kernel.start config disk clock own = .ok k₀)
    {commands : List (Command κ σ)} (hrun : k₀.commandAll? x commands = some k) {p : Parked}
    (hp : k.parked.get? id = some p) :
    ∃ name cells, k.errors.get? id = some (.multipleDefinition name cells) ∧
      p.spec.defs.has name = true ∧ k.graph.isPrivate name = false ∧ cells ≠ [] ∧ id ∉ cells ∧
      ((∀ d ∈ cells, k.Defines d name) ↔
        ∃ d, cells = [d] ∧ k.graph.definer? name = some d) := by
  have hreached := (Reachable.start hstart).commandAll? hrun
  obtain ⟨e, he, hrefused⟩ := hreached.explained id p hp
  obtain ⟨name, cells, rfl, hdef, hpub, hsome, hnodup, hself⟩ := hrefused.names
  rw [(hreached.inOrder.waitFor id p hp).1] at hself
  exact ⟨name, cells, he, hdef, hpub, hsome, hself,
    all_define_iff hreached.inOrder.wellFormed hpub hsome hnodup⟩

end Kernel

/-! ## §5. Torn between two cells. -/

/-- Waits for `x` and `y`. -/
def CellSpec.greedy : CellSpec := ⟨⟨2⟩, "x = y = 2", .ofList ["x", "y"], .empty⟩

/-- One cell defines `x` and one `y`, and a third one waits for both. -/
def CellSpec.torn : List CellSpec :=
  [⟨⟨0⟩, "x = 1", .ofList ["x"], .empty⟩, ⟨⟨1⟩, "y = 1", .ofList ["y"], .empty⟩, .greedy]

namespace Kernel

/-- The cell that defines `y` is deleted, and the one that waits is registered again. -/
def reconsidered : List (Command Unit Unit) :=
  [.apply (.register CellSpec.torn), .apply (.delete ⟨1⟩), .apply (.register [.greedy])]

/-- Only `x` is in conflict now, and the error lists its definer. -/
theorem reconsidered_points_at_definer :
    let _ := Sha256.hashFunction
    ∃ (k₀ k : Kernel Unit Unit) (p : Parked),
      Kernel.start { cellCache := false } {} 0 () = .ok k₀ ∧
      k₀.commandAll? .refuser reconsidered = some k ∧ k.parked.get? ⟨2⟩ = some p ∧
      k.errors.get? ⟨2⟩ = some (.multipleDefinition "x" [⟨0⟩]) ∧ k.Defines ⟨0⟩ "x" := by
  intro _
  let k₀ : Kernel Unit Unit := { config := { cellCache := false }, session := { own := () } }
  have hstart : Kernel.start { cellCache := false } {} 0 () = .ok k₀ := rfl
  have hend : (k₀.commandAll? .refuser reconsidered).map (fun k =>
      (k.parked.contains ⟨2⟩, k.errors.get? ⟨2⟩, k.graph.definer? "x")) =
      some (true, some (.multipleDefinition "x" [⟨0⟩]), some ⟨0⟩) := by cbv
  obtain ⟨k, hrun, hfacts⟩ := Option.map_eq_some_iff.1 hend
  simp only [Prod.mk.injEq] at hfacts
  obtain ⟨hparked, herror, hdefiner⟩ := hfacts
  obtain ⟨p, hp⟩ := Option.isSome_iff_exists.1 hparked
  obtain ⟨name, cells, he, -, -, -, -, hall⟩ := commandAll?_conflicts .refuser hstart hrun hp
  obtain ⟨rfl, rfl⟩ := CellError.multipleDefinition.inj (Option.some.inj (herror.symm.trans he))
  exact ⟨k₀, k, p, hstart, hrun, hp, herror, hall.2 ⟨⟨0⟩, rfl, hdefiner⟩ ⟨0⟩ List.mem_cons_self⟩

/-- **An error that points beside the conflict.**  The cell that waits for both names is told that
`x` is defined by the cells 0 and 1, and cell 1 does not define it. -/
theorem torn_points_beside :
    let _ := Sha256.hashFunction
    ¬ ∀ (k₀ : Kernel Unit Unit) (specs : List CellSpec),
      Kernel.start { cellCache := false } {} 0 () = .ok k₀ →
      ∀ id p, (k₀.registerCells specs).parked.get? id = some p →
        ∃ name cells,
          (k₀.registerCells specs).errors.get? id = some (.multipleDefinition name cells) ∧
          p.spec.defs.has name = true ∧
          (k₀.registerCells specs).graph.isPrivate name = false ∧ cells ≠ [] ∧
          ∀ d ∈ cells, (k₀.registerCells specs).Defines d name := by
  intro _ hall
  let k₀ : Kernel Unit Unit := { config := { cellCache := false }, session := { own := () } }
  have hend : (fun k : Kernel Unit Unit => (k.parked.contains ⟨2⟩, k.errors.get? ⟨2⟩,
      (k.graph.cell? ⟨1⟩).map fun c => c.defs.has "x")) (k₀.registerCells CellSpec.torn) =
      (true, some (.multipleDefinition "x" [⟨0⟩, ⟨1⟩]), some false) := by cbv
  simp only [Prod.mk.injEq] at hend
  obtain ⟨hparked, herror, hnot⟩ := hend
  obtain ⟨p, hp⟩ := Option.isSome_iff_exists.1 hparked
  obtain ⟨name, cells, he, -, -, -, hdefine⟩ := hall k₀ CellSpec.torn rfl ⟨2⟩ p hp
  obtain ⟨rfl, rfl⟩ := CellError.multipleDefinition.inj (Option.some.inj (herror.symm.trans he))
  obtain ⟨c, hc, hdef⟩ := hdefine ⟨1⟩ (by simp)
  rw [hc, Option.map_some, hdef] at hnot
  cases hnot

end Kernel

end Notebook
