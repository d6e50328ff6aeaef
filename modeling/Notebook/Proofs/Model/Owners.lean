/-
  Notebook.Proofs.Model.Owners — who owns a model, and what hangs in the air.

  A model that is bound to no cell is nested in another one.  From parent to parent the way up
  either comes to a model that is bound directly (`ModelTable.FirstBound`), which decides the owner,
  or it ends at a parent without a binding (`ModelTable.Loose`), or it goes in a circle.  A way to a
  directly bound model does not come to any model twice, so it is not longer than the table.

  Main results:
    * `ModelTable.owner?_eq_some_iff` — the owner is the cell of the first directly bound model,
    * `ModelTable.ownerUp_eq` — looking out for seen models finds the same owner.
-/
import Mathlib.Data.List.Nodup
import Mathlib.Data.List.Perm.Subperm
import Notebook.Model.Walk
import Notebook.Proofs.Model.Bindings

namespace Notebook.ModelTable

variable {κ : Type} {t : ModelTable κ} {m p q d d' : ModelId} {c : CellId} {n n' : Nat}
  {seen : List ModelId}

/-! ## §1. Ways up. -/

/-- A model that is bound to no cell, and the model that it is nested in. -/
def NestedIn (t : ModelTable κ) (m p : ModelId) : Prop :=
  ∃ b, t.bindings.get? m = some b ∧ b.cell = none ∧ b.parent = some p

theorem NestedIn.unique (hp : t.NestedIn m p) (hq : t.NestedIn m q) : p = q := by
  obtain ⟨b, hb, -, hparent⟩ := hp
  obtain ⟨b', hb', -, hparent'⟩ := hq
  obtain rfl := Option.some.inj (hb.symm.trans hb')
  exact Option.some.inj (hparent.symm.trans hparent')

/-- A nested model is bound to no cell. -/
theorem NestedIn.cell?_eq_none (h : t.NestedIn m p) : t.cell? m = none := by
  obtain ⟨b, hb, hcell, -⟩ := h
  rw [cell?, hb, Option.bind_some, hcell]

theorem NestedIn.mem_keys (h : t.NestedIn m p) : m ∈ t.bindings.keys := by
  obtain ⟨b, hb, -⟩ := h
  rw [Table.mem_keys_iff, hb]
  rfl

theorem mem_keys_of_cell? (h : t.cell? m = some c) : m ∈ t.bindings.keys := by
  obtain ⟨b, hb, -⟩ := Option.bind_eq_some_iff.1 h
  rw [Table.mem_keys_iff, hb]
  rfl

/-- The way up from `m` comes to the directly bound model `d` after `n` nested ones. -/
inductive FirstBoundAfter (t : ModelTable κ) : (n : Nat) → (m d : ModelId) → Prop
  | here {m : ModelId} {c : CellId} (hc : t.cell? m = some c) : FirstBoundAfter t 0 m m
  | up {n : Nat} {m p d : ModelId} (hm : t.NestedIn m p) (hrest : FirstBoundAfter t n p d) :
      FirstBoundAfter t (n + 1) m d

/-- `d` is the first directly bound model on the way up from `m`. -/
def FirstBound (t : ModelTable κ) (m d : ModelId) : Prop := ∃ n, t.FirstBoundAfter n m d

/-- A nested model whose way up meets no directly bound model and ends at a parent without a
binding. -/
inductive Loose (t : ModelTable κ) : ModelId → Prop
  | gap {m p : ModelId} (hm : t.NestedIn m p) (hp : t.bindings.get? p = none) : Loose t m
  | up {m p : ModelId} (hm : t.NestedIn m p) (hp : Loose t p) : Loose t m

namespace FirstBoundAfter

/-- A way up comes to one directly bound model, and after one number of steps. -/
theorem unique (h : t.FirstBoundAfter n m d) (h' : t.FirstBoundAfter n' m d') :
    n = n' ∧ d = d' := by
  induction h generalizing n' with
  | here hc =>
    cases h' with
    | here => exact ⟨rfl, rfl⟩
    | up hm =>
      rw [hm.cell?_eq_none] at hc
      cases hc
  | up hm hrest ih =>
    cases h' with
    | here hc =>
      rw [hm.cell?_eq_none] at hc
      cases hc
    | up hm' hrest' =>
      obtain rfl := hm.unique hm'
      obtain ⟨rfl, rfl⟩ := ih hrest'
      exact ⟨rfl, rfl⟩

/-- Every model on a way up has a binding. -/
theorem bound (h : t.FirstBoundAfter n m d) : t.bindings.get? m ≠ none := by
  cases h with
  | here hc =>
    obtain ⟨b, hb, -⟩ := Option.bind_eq_some_iff.1 hc
    rw [hb]
    exact Option.some_ne_none b
  | up hm =>
    obtain ⟨b, hb, -⟩ := hm
    rw [hb]
    exact Option.some_ne_none b

/-- It ends at a model that is bound to a cell. -/
theorem exists_cell? (h : t.FirstBoundAfter n m d) : ∃ c, t.cell? d = some c := by
  induction h with
  | here hc => exact ⟨_, hc⟩
  | up _ _ ih => exact ih

/-- The models on the way: each is nearer to its end than the one before. -/
theorem exists_way (h : t.FirstBoundAfter n m d) : ∃ way : List ModelId,
    way.length = n + 1 ∧ way.Nodup ∧ way ⊆ t.bindings.keys ∧
      ∀ x ∈ way, ∃ k ≤ n, t.FirstBoundAfter k x d := by
  induction h with
  | @here m c hc =>
    refine ⟨[m], rfl, List.nodup_singleton m, ?_, ?_⟩
    · exact List.cons_subset.2 ⟨mem_keys_of_cell? hc, List.nil_subset _⟩
    · intro x hx
      rw [List.mem_singleton.1 hx]
      exact ⟨0, Nat.le_refl 0, .here hc⟩
  | @up n m p d hm hrest ih =>
    obtain ⟨way, hlength, hnodup, hkeys, hnearer⟩ := ih
    have hself : t.FirstBoundAfter (n + 1) m d := .up hm hrest
    refine ⟨m :: way, congrArg (· + 1) hlength, List.nodup_cons.2 ⟨fun hmem => ?_, hnodup⟩,
      List.cons_subset.2 ⟨hm.mem_keys, hkeys⟩, ?_⟩
    · -- the rest of the way is nearer to the end than `m`
      obtain ⟨k, hk, hway⟩ := hnearer m hmem
      have := (hway.unique hself).1
      omega
    · intro x hx
      rcases List.mem_cons.1 hx with rfl | hx
      · exact ⟨n + 1, Nat.le_refl _, hself⟩
      · obtain ⟨k, hk, hway⟩ := hnearer x hx
        exact ⟨k, by omega, hway⟩

/-- **The way is not longer than the table.** -/
theorem lt_size (h : t.FirstBoundAfter n m d) : n < t.bindings.size := by
  obtain ⟨way, hlength, hnodup, hkeys, -⟩ := h.exists_way
  have hle := (hnodup.subperm hkeys).length_le
  rw [hlength, Table.keys, List.length_map] at hle
  exact hle

/-- With room for it the cell at its end is found. -/
theorem ownerWithin_eq (h : t.FirstBoundAfter n m d) (hc : t.cell? d = some c) {steps : Nat}
    (hsteps : n < steps) : t.ownerWithin steps m = some c := by
  induction h generalizing steps with
  | here =>
    obtain ⟨steps, rfl⟩ := Nat.exists_eq_add_of_lt hsteps
    obtain ⟨b, hb, hcell⟩ := Option.bind_eq_some_iff.1 hc
    simp [ownerWithin, hb, hcell]
  | up hm hrest ih =>
    cases steps with
    | zero => exact absurd hsteps (Nat.not_lt_zero _)
    | succ steps =>
      obtain ⟨b, hb, hcell, hparent⟩ := hm
      simp only [ownerWithin, hb, hcell, hparent]
      exact ih hc (Nat.lt_of_succ_lt_succ hsteps)

/-- No model on the way was seen, so the way is followed to its end. -/
theorem ownerUp_eq (h : t.FirstBoundAfter n m d) (hc : t.cell? d = some c)
    (hseen : ∀ x ∈ seen, ∀ k ≤ n, ¬ t.FirstBoundAfter k x d) : t.ownerUp seen m = some c := by
  induction h generalizing seen with
  | @here m c' hc' =>
    have hnew : m ∉ seen := fun hmem => hseen m hmem 0 (Nat.le_refl 0) (.here hc')
    obtain ⟨b, hb, hcell⟩ := Option.bind_eq_some_iff.1 hc
    rw [ownerUp, if_neg hnew]
    split
    · rename_i hnone
      rw [hb] at hnone
      cases hnone
    · rename_i b' hb'
      obtain rfl : b = b' := Option.some.inj (hb.symm.trans hb')
      rw [hcell]
  | @up n m p d hm hrest ih =>
    have hself : t.FirstBoundAfter (n + 1) m d := .up hm hrest
    have hnew : m ∉ seen := fun hmem => hseen m hmem (n + 1) (Nat.le_refl _) hself
    obtain ⟨b, hb, hcell, hparent⟩ := hm
    rw [ownerUp, if_neg hnew]
    split
    · rename_i hnone
      rw [hb] at hnone
      cases hnone
    · rename_i b' hb'
      obtain rfl : b = b' := Option.some.inj (hb.symm.trans hb')
      rw [hcell, hparent]
      refine ih hc fun x hx k hk hway => ?_
      rcases List.mem_append.1 hx with hx | hx
      · exact hseen x hx k (by omega) hway
      · obtain rfl := List.mem_singleton.1 hx
        have := (hway.unique hself).1
        omega

end FirstBoundAfter

theorem FirstBound.unique (h : t.FirstBound m d) (h' : t.FirstBound m d') : d = d' := by
  obtain ⟨n, hn⟩ := h
  obtain ⟨n', hn'⟩ := h'
  exact (hn.unique hn').2

/-- Both ends of a way are not met: a model cannot hang in the air and be owned. -/
theorem Loose.not_firstBound (h : t.Loose m) : ¬ t.FirstBound m d := by
  rintro ⟨n, hn⟩
  induction h generalizing n with
  | gap hm hp =>
    cases hn with
    | here hc =>
      rw [hm.cell?_eq_none] at hc
      cases hc
    | up hm' hrest =>
      obtain rfl := hm.unique hm'
      exact absurd hp hrest.bound
  | up hm hp ih =>
    cases hn with
    | here hc =>
      rw [hm.cell?_eq_none] at hc
      cases hc
    | up hm' hrest =>
      obtain rfl := hm.unique hm'
      exact ih _ hrest

/-! ## §2. Owners. -/

/-- An owner is the cell of a model that the way up comes to. -/
theorem exists_firstBound_of_ownerWithin {steps : Nat} (h : t.ownerWithin steps m = some c) :
    ∃ d, t.FirstBound m d ∧ t.cell? d = some c := by
  induction steps generalizing m with
  | zero => cases h
  | succ steps ih =>
    unfold ownerWithin at h
    split at h
    · cases h
    · rename_i b hb
      split at h
      · rename_i cell hcell
        obtain rfl := Option.some.inj h
        have hc : t.cell? m = some cell := by rw [cell?, hb, Option.bind_some, hcell]
        exact ⟨m, ⟨0, .here hc⟩, hc⟩
      · rename_i p hcell hparent
        obtain ⟨d, ⟨n, hn⟩, hc⟩ := ih h
        exact ⟨d, ⟨n + 1, .up ⟨b, hb, hcell, hparent⟩ hn⟩, hc⟩
      · cases h

/-- **The owner of a model is the cell of the first directly bound model on its way up.** -/
theorem owner?_eq_some_iff : t.owner? m = some c ↔ ∃ d, t.FirstBound m d ∧ t.cell? d = some c := by
  constructor
  · exact exists_firstBound_of_ownerWithin
  · rintro ⟨d, ⟨n, hn⟩, hc⟩
    exact hn.ownerWithin_eq hc hn.lt_size

theorem exists_firstBound_of_ownerUp (h : t.ownerUp seen m = some c) :
    ∃ d, t.FirstBound m d ∧ t.cell? d = some c := by
  fun_induction t.ownerUp seen m with
  | case1 => cases h
  | case2 => cases h
  | case3 seen m hnew b hb cell hcell =>
    obtain rfl := Option.some.inj h
    have hc : t.cell? m = some cell := by rw [cell?, hb, Option.bind_some, hcell]
    exact ⟨m, ⟨0, .here hc⟩, hc⟩
  | case4 seen m hnew b hb p hparent hcell ih =>
    obtain ⟨d, ⟨n, hn⟩, hc⟩ := ih h
    exact ⟨d, ⟨n + 1, .up ⟨b, hb, hcell, hparent⟩ hn⟩, hc⟩
  | case5 => cases h

/-- **Looking out for seen models finds the same owner.** -/
theorem ownerUp_eq (t : ModelTable κ) (m : ModelId) : t.ownerUp [] m = t.owner? m := by
  refine Option.ext fun c => ?_
  rw [owner?_eq_some_iff]
  constructor
  · exact exists_firstBound_of_ownerUp
  · rintro ⟨d, ⟨n, hn⟩, hc⟩
    exact hn.ownerUp_eq hc fun x hx => absurd hx List.not_mem_nil

end Notebook.ModelTable
