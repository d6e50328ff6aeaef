/-
  Notebook.Proofs.Graph.Paths — descendants, cells on cycles, and dependency orders.

  The searches of the graph compute reachability along edges: `descendants` the cells reached from
  live roots, `below` those reached by at least one edge.  A cell lies on a cycle when it reaches
  itself.

  `orderFrom` never puts an element before one it comes after, and what it leaves over always has
  a predecessor that is left over as well.  In a finite set without cycles nothing can be left.

  Main results:
    * `mem_descendants` — descendants are what paths from live roots lead to,
    * `mem_listed_below` — `below` is reachability by at least one edge,
    * `orderFrom_pairwise` / `orderFrom_complete` — the order is a dependency order, and complete
      where there is no cycle,
    * `acyclic_induction` — from the cycles down, what the parents of a cell decide holds of it.
-/
import Mathlib.Data.Fintype.EquivFin
import Mathlib.Data.Set.Finite.Basic
import Mathlib.Order.WellFounded
import Notebook.Graph.Plan
import Notebook.Proofs.Graph.Edges

namespace Notebook

open Relation

namespace Graph

variable {g g' : Graph} {roots : OrderedSet CellId} {a b id : CellId}

/-! ## §1. Descendants. -/

/-- A cell is a descendant when a path leads to it from a live root. -/
theorem mem_descendants (hg : g.WellFormed) : id ∈ g.descendants roots ↔
    ∃ r, roots.has r = true ∧ g.contains r = true ∧ ReflTransGen g.Edge r id := by
  simp only [descendants, List.mem_filter, List.contains_iff_mem]
  constructor
  · rintro ⟨-, hfound⟩
    refine closure_subset (s := fun id => ∃ r, roots.has r = true ∧ g.contains r = true ∧
      ReflTransGen g.Edge r id) (fun r hr => ?_) ?_ id hfound
    · obtain ⟨hlive, hroot⟩ := List.mem_filter.1 hr
      exact ⟨r, hroot, mem_ids.1 hlive, .refl⟩
    · rintro a ⟨r, hroot, hlive, hpath⟩ b hb -
      exact ⟨r, hroot, hlive, hpath.tail ((mem_children hg).1 hb)⟩
  · rintro ⟨r, hroot, hlive, hpath⟩
    induction hpath with
    | refl =>
      exact ⟨mem_ids.2 hlive,
        subset_closure _ _ _ (List.mem_filter.2 ⟨mem_ids.2 hlive, hroot⟩)⟩
    | tail _ hedge ih =>
      have hb := mem_ids.2 hedge.contains_right
      exact ⟨hb, closure_closed ih.2 ((mem_children hg).2 hedge) hb⟩

theorem descendants_nodup (hg : g.WellFormed) : (g.descendants roots).Nodup :=
  hg.ids_nodup.sublist List.filter_sublist

theorem contains_of_mem_descendants (h : id ∈ g.descendants roots) : g.contains id = true :=
  mem_ids.1 (List.mem_filter.1 h).1

theorem descendants_closed (hg : g.WellFormed) (ha : a ∈ g.descendants roots)
    (hpath : ReflTransGen g.Edge a b) : b ∈ g.descendants roots := by
  obtain ⟨r, hroot, hlive, hr⟩ := (mem_descendants hg).1 ha
  exact (mem_descendants hg).2 ⟨r, hroot, hlive, hr.trans hpath⟩

theorem mem_descendants_of_root (hg : g.WellFormed) (hroot : roots.has id = true)
    (hlive : g.contains id = true) : id ∈ g.descendants roots :=
  (mem_descendants hg).2 ⟨id, hroot, hlive, .refl⟩

theorem not_mem_descendants_of_none (hg : g.WellFormed) (hnone : ∀ r, roots.has r = false) :
    id ∉ g.descendants roots := by
  intro hmem
  obtain ⟨r, hroot, -⟩ := (mem_descendants hg).1 hmem
  rw [hnone r] at hroot
  cases hroot

/-- What is affected by names can be read off the shape. -/
theorem mem_affectedBy_congr (hg : g.WellFormed) (h : g.shape = g'.shape) {names : List String} :
    id ∈ g.affectedBy names ↔ id ∈ g'.affectedBy names := by
  have hg' := hg.congr h
  have key : ∀ {g g' : Graph} {a : CellId}, g.WellFormed → g'.WellFormed → g.shape = g'.shape →
      (g.readersOf names).has a = true → (g'.readersOf names).has a = true := by
    intro g g' a hg hg' h hread
    obtain ⟨name, hname, hpub, c, hc, href, hdef⟩ := (has_readersOf hg).1 hread
    obtain ⟨d, hd, hshape⟩ := cell?_congr h hc
    obtain ⟨-, -, hdefs, hrefs, -⟩ := Cell.shape_eq_iff.1 hshape
    exact (has_readersOf hg').2 ⟨name, hname, isPrivate_congr h name ▸ hpub, d, hd,
      hrefs ▸ href, hdefs ▸ hdef⟩
  have hreaders : g.readersOf names = g'.readersOf names :=
    OrderedSet.ext_has fun a => ⟨key hg hg' h, key hg' hg h.symm⟩
  have hedge : g.Edge = g'.Edge := by
    funext a b
    exact propext (edge_congr h)
  unfold affectedBy
  simp only [mem_descendants hg, mem_descendants hg', hreaders, hedge, contains_congr h]

/-! ## §2. Cells on cycles. -/

/-- A cell lies on a cycle when it reaches itself. -/
def OnCycle (g : Graph) (id : CellId) : Prop := TransGen g.Edge id id

/-- Cycles can be read off the edges. -/
theorem onCycle_iff_of_edge (h : ∀ a b, g.Edge a b ↔ g'.Edge a b) :
    g.OnCycle id ↔ g'.OnCycle id := by
  have hedge : g.Edge = g'.Edge := by
    funext a b
    exact propext (h a b)
  unfold OnCycle
  rw [hedge]

theorem onCycle_congr (h : g.shape = g'.shape) : g.OnCycle id ↔ g'.OnCycle id :=
  onCycle_iff_of_edge fun _ _ => edge_congr h

theorem listed_eq_nil {ids : List CellId} (f : CellId → List CellId) (h : id ∉ ids) :
    listed (.tabulate ids f) id = [] := by
  simp [listed, h]

/-- The table of children holds the edges. -/
theorem mem_listed_children (hg : g.WellFormed) :
    b ∈ listed (.tabulate g.ids g.children) a ↔ g.Edge a b := by
  by_cases ha : a ∈ g.ids
  · rw [listed_tabulate _ ha, mem_children hg]
  · rw [listed_eq_nil _ ha]
    exact iff_of_false List.not_mem_nil fun h => ha (mem_ids.2 h.contains_left)

/-- `below` lists what a cell reaches by at least one edge. -/
theorem mem_listed_below (hg : g.WellFormed) : b ∈ listed g.below a ↔ TransGen g.Edge a b := by
  unfold below
  by_cases ha : a ∈ g.ids
  · rw [listed_tabulate _ ha]
    constructor
    · refine closure_subset (s := TransGen g.Edge a) (fun c hc => ?_) (fun c hc d hd _ => ?_) b
      · exact .single ((mem_listed_children hg).1 hc)
      · exact hc.tail ((mem_listed_children hg).1 hd)
    · intro hpath
      induction hpath with
      | single hedge => exact subset_closure _ _ _ ((mem_listed_children hg).2 hedge)
      | tail _ hedge ih =>
        exact closure_closed ih ((mem_listed_children hg).2 hedge) (mem_ids.2 hedge.contains_right)
  · rw [listed_eq_nil _ ha]
    refine iff_of_false List.not_mem_nil fun h => ha (mem_ids.2 ?_)
    obtain ⟨c, hedge, -⟩ := TransGen.head'_iff.1 h
    exact hedge.contains_left

theorem onCycle_below (hg : g.WellFormed) : onCycle (listed g.below) id = true ↔ g.OnCycle id := by
  rw [onCycle, List.contains_iff_mem, mem_listed_below hg]
  rfl

theorem OnCycle.contains (h : g.OnCycle id) : g.contains id = true := by
  obtain ⟨c, hedge, -⟩ := TransGen.head'_iff.1 h
  exact hedge.contains_left

/-! ## §3. Dependency orders. -/

end Graph

section Order

variable {α : Type} [DecidableEq α] {before : α → List α} {remaining : List α} {a : α}

theorem firstReady?_some (h : firstReady? before remaining = some a) :
    a ∈ remaining ∧ ∀ b ∈ before a, b ∉ remaining := by
  refine ⟨List.mem_of_find?_eq_some h, fun b hb hrem => ?_⟩
  unfold firstReady? at h
  have hready := List.find?_some h
  have := List.all_eq_true.1 hready b hb
  simp [hrem] at this

theorem firstReady?_none (h : firstReady? before remaining = none) (ha : a ∈ remaining) :
    ∃ b ∈ before a, b ∈ remaining := by
  have := List.find?_eq_none.1 h a ha
  simpa using this

theorem orderFrom_subset : orderFrom before remaining ⊆ remaining := by
  fun_induction orderFrom before remaining with
  | case1 remaining a h ih =>
    refine List.cons_subset.2 ⟨(firstReady?_some h).1, fun b hb => ?_⟩
    exact List.mem_of_mem_erase (ih hb)
  | case2 => exact List.nil_subset _

theorem orderFrom_nodup (hnodup : remaining.Nodup) : (orderFrom before remaining).Nodup := by
  fun_induction orderFrom before remaining with
  | case1 remaining a h ih =>
    refine List.nodup_cons.2 ⟨fun hmem => ?_, ih (hnodup.erase a)⟩
    exact hnodup.not_mem_erase (orderFrom_subset hmem)
  | case2 => exact List.nodup_nil

/-- No element comes before one that it comes after. -/
theorem orderFrom_pairwise :
    (orderFrom before remaining).Pairwise fun a b => b ∉ before a := by
  fun_induction orderFrom before remaining with
  | case1 remaining a h ih =>
    refine List.pairwise_cons.2 ⟨fun b hb hbefore => ?_, ih⟩
    exact (firstReady?_some h).2 b hbefore (List.mem_of_mem_erase (orderFrom_subset hb))
  | case2 => exact List.Pairwise.nil

/-- What is left over comes after something that is left over. -/
theorem orderFrom_stuck (hnodup : remaining.Nodup) (ha : a ∈ remaining)
    (hleft : a ∉ orderFrom before remaining) :
    ∃ b ∈ before a, b ∈ remaining ∧ b ∉ orderFrom before remaining := by
  fun_induction orderFrom before remaining with
  | case1 remaining first h ih =>
    obtain ⟨hne, hleft⟩ := not_or.1 (fun h => hleft (List.mem_cons.2 h))
    obtain ⟨b, hb, hrem, hout⟩ := ih (hnodup.erase first) ((List.mem_erase_of_ne hne).2 ha) hleft
    refine ⟨b, hb, List.mem_of_mem_erase hrem, fun hmem => ?_⟩
    rcases List.mem_cons.1 hmem with rfl | hmem
    · exact hnodup.not_mem_erase hrem
    · exact hout hmem
  | case2 remaining h =>
    obtain ⟨b, hb, hrem⟩ := firstReady?_none h ha
    exact ⟨b, hb, hrem, List.not_mem_nil⟩

/-- Where nothing comes after itself, nothing is left over. -/
theorem orderFrom_complete (hnodup : remaining.Nodup)
    (hacyclic : ∀ a ∈ remaining, ¬ TransGen (fun b a => b ∈ before a) a a) :
    remaining ⊆ orderFrom before remaining := by
  -- the elements are finitely many, so "comes transitively after" has no infinite descent
  let after (x y : { x // x ∈ remaining }) : Prop := TransGen (fun b a => b ∈ before a) x.1 y.1
  have hfinite : Finite { x // x ∈ remaining } := remaining.finite_toSet
  have htrans : IsTrans _ after := ⟨fun _ _ _ h₁ h₂ => TransGen.trans h₁ h₂⟩
  have hirrefl : Std.Irrefl after := ⟨fun x => hacyclic x.1 x.2⟩
  have hwf : WellFounded after := Finite.wellFounded_of_trans_of_irrefl after
  intro a ha
  by_contra hleft
  obtain ⟨m, hm, hmin⟩ := hwf.has_min { x | x.1 ∉ orderFrom before remaining } ⟨⟨a, ha⟩, hleft⟩
  obtain ⟨b, hb, hrem, hout⟩ := orderFrom_stuck hnodup m.2 hm
  exact hmin ⟨b, hrem⟩ hout (.single hb)

end Order

namespace Graph

variable {g : Graph} {members : List CellId} {a b : CellId}

theorem orderOf_subset : g.orderOf members ⊆ members := orderFrom_subset

theorem orderOf_nodup (h : members.Nodup) : (g.orderOf members).Nodup := orderFrom_nodup h

/-- Every cell comes after the members that it depends on. -/
theorem orderOf_pairwise (hg : g.WellFormed) :
    (g.orderOf members).Pairwise fun a b => ¬ g.Edge b a := by
  have hpair : (g.orderOf members).Pairwise _ := orderFrom_pairwise
  refine hpair.imp_of_mem fun {a b} ha _ hnot hedge => hnot ?_
  rw [listed_tabulate _ (orderOf_subset ha)]
  exact (mem_parents hg).2 hedge

theorem orderOf_complete (hg : g.WellFormed) (h : members.Nodup)
    (hacyclic : ∀ a ∈ members, ¬ g.OnCycle a) : members ⊆ g.orderOf members := by
  refine orderFrom_complete h fun a ha hcycle => hacyclic a ha ?_
  refine TransGen.mono (fun b a hb => ?_) a a hcycle
  by_cases ha : a ∈ members
  · rw [listed_tabulate _ ha] at hb
    exact (mem_parents hg).1 hb
  · rw [listed_eq_nil _ ha] at hb
    exact absurd hb List.not_mem_nil

/-- What holds on cycles, and of a cell when it holds of its parents, holds of all live cells. -/
theorem acyclic_induction {P : CellId → Prop} (hcycle : ∀ id, g.OnCycle id → P id)
    (hstep : ∀ id, ¬ g.OnCycle id → (∀ p, g.Edge p id → P p) → P id) {id : CellId}
    (hid : g.contains id = true) : P id := by
  -- off the cycles the live cells are finitely many, and "is upstream of" is a strict order
  let upstream (x y : { x // x ∈ g.ids ∧ ¬ g.OnCycle x }) : Prop := TransGen g.Edge x.1 y.1
  have hfinite : Finite { x // x ∈ g.ids ∧ ¬ g.OnCycle x } :=
    (g.ids.finite_toSet.subset fun _ h => h.1).to_subtype
  have htrans : IsTrans _ upstream := ⟨fun _ _ _ h₁ h₂ => TransGen.trans h₁ h₂⟩
  have hirrefl : Std.Irrefl upstream := ⟨fun x => x.2.2⟩
  have hwf : WellFounded upstream := Finite.wellFounded_of_trans_of_irrefl upstream
  have hacyclic : ∀ x : { x // x ∈ g.ids ∧ ¬ g.OnCycle x }, P x.1 := by
    intro x
    induction x using hwf.induction with
    | _ x ih =>
      refine hstep x.1 x.2.2 fun p hedge => ?_
      by_cases hp : g.OnCycle p
      · exact hcycle p hp
      · exact ih ⟨p, mem_ids.2 hedge.contains_left, hp⟩ (.single hedge)
  by_cases hon : g.OnCycle id
  · exact hcycle id hon
  · exact hacyclic ⟨id, mem_ids.2 hid, hon⟩

end Graph

end Notebook
