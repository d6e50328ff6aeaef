/-
  Notebook.Proofs.Graph.Orders — dependency orders of a run, and which of them is taken.

  A run-set is what paths from the live roots lead to.  A dependency order lists its cells once
  each, and a cell after all cells that it depends on.  There is one unless a cycle lies in the
  run-set: what is ordered comes strictly after everything above it, so no cell on a cycle can be.

  Of all dependency orders the one that is taken is the least by places.  The first cell of any
  other order depends on nothing, and the first cell that is taken is the earliest such cell; where
  both begin alike, their rests are orders of the same cells.

  Main results:
    * `Ranked.eq_of_mem_iff` — a list in the order of its ranks is known by its elements,
    * `orderFrom_least` — taking the first ready element gives the least order,
    * `not_mem_orderOf_of_onCycle` — no cell of a cycle is ordered,
    * `topologicalOrder_eq_ok_iff` / `topologicalOrder_eq_error_iff` — when a run has an order,
    * `dependencyOrder_orderOf` / `orderOf_least` — it is a dependency order, and the least one.
-/
import Notebook.Graph.Schedule
import Notebook.Proofs.Graph.Paths

namespace Notebook

open Relation

/-! ## §1. Lists in the order of their ranks. -/

/-- The ranks strictly grow along the list. -/
def Ranked {α : Type} (rank : α → Nat) (l : List α) : Prop :=
  l.Pairwise fun a b => rank a < rank b

namespace Ranked

variable {α : Type} {rank : α → Nat} {l l' : List α}

theorem nodup (h : Ranked rank l) : l.Nodup := by
  have hirrefl : Std.Irrefl fun a b => rank a < rank b := ⟨fun a => Nat.lt_irrefl (rank a)⟩
  exact List.Pairwise.nodup h

/-- A list in the order of its ranks is known by its elements. -/
theorem eq_of_mem_iff (h : Ranked rank l) (h' : Ranked rank l') (hmem : ∀ a, a ∈ l ↔ a ∈ l') :
    l = l' := by
  have hirrefl : Std.Irrefl fun a b => rank a < rank b := ⟨fun a => Nat.lt_irrefl (rank a)⟩
  have hanti : Std.Antisymm fun a b => rank a < rank b :=
    ⟨fun a b hab hba => absurd hab (Nat.lt_asymm hba)⟩
  exact List.Pairwise.eq_of_mem_iff h h' hmem

theorem sublist (h : Ranked rank l) (hsub : l'.Sublist l) : Ranked rank l' :=
  List.Pairwise.sublist hsub h

/-- Different elements have different ranks. -/
theorem injective (h : Ranked rank l) {a b : α} (ha : a ∈ l) (hb : b ∈ l)
    (heq : rank a = rank b) : a = b := by
  have hranks : (l.map rank).Nodup :=
    List.pairwise_map.2 (h.imp fun hlt => Nat.ne_of_lt hlt)
  exact List.inj_on_of_nodup_map hranks ha hb heq

theorem le_of_find? (h : Ranked rank l) {accept : α → Bool} {a b : α}
    (hfind : l.find? accept = some a) (hb : b ∈ l) (hacc : accept b = true) : rank a ≤ rank b := by
  obtain ⟨-, pre, post, rfl, hpre⟩ := List.find?_eq_some_iff_append.1 hfind
  rcases List.mem_append.1 hb with hb | hb
  · have hnot := hpre b hb
    simp [hacc] at hnot
  · rcases List.mem_cons.1 hb with rfl | hb
    · exact Nat.le_refl _
    · exact Nat.le_of_lt ((List.pairwise_cons.1 (List.pairwise_append.1 h).2.1).1 b hb)

/-- The first element that is accepted is the accepted one of least rank. -/
theorem find?_eq_some_iff (h : Ranked rank l) {accept : α → Bool} {a : α} :
    l.find? accept = some a ↔
      a ∈ l ∧ accept a = true ∧ ∀ b ∈ l, accept b = true → rank a ≤ rank b := by
  constructor
  · intro hfind
    exact ⟨List.mem_of_find?_eq_some hfind, List.find?_some hfind,
      fun b hb hacc => h.le_of_find? hfind hb hacc⟩
  · intro hleast
    obtain ⟨ha, hacc, hle⟩ := hleast
    obtain ⟨c, hc⟩ := Option.isSome_iff_exists.1 (List.find?_isSome.2 ⟨a, ha, hacc⟩)
    have hmem := List.mem_of_find?_eq_some hc
    have hsame : a = c := h.injective ha hmem
      (Nat.le_antisymm (hle c hmem (List.find?_some hc)) (h.le_of_find? hc ha hacc))
    exact hsame ▸ hc

end Ranked

/-- Sorted by their ranks, elements have growing ranks. -/
theorem pairwise_mergeSort_rank {α : Type} (rank : α → Nat) (l : List α) :
    (l.mergeSort fun a b => rank a ≤ rank b).Pairwise fun a b => rank a ≤ rank b := by
  refine (List.pairwise_mergeSort (fun a b c hab hbc => ?_) (fun a b => ?_) l).imp
    fun hle => of_decide_eq_true hle
  · simp only [decide_eq_true_eq] at hab hbc ⊢
    exact hab.trans hbc
  · simp only [Bool.or_eq_true, decide_eq_true_eq]
    exact Nat.le_total _ _

/-! ## §2. The first ready element. -/

section First

variable {α : Type} [DecidableEq α] {before : α → List α} {remaining : List α} {a b : α}

/-- What an ordered element comes after is ordered, too. -/
theorem mem_orderFrom_of_before (hnodup : remaining.Nodup) (ha : a ∈ orderFrom before remaining)
    (hb : b ∈ before a) (hrem : b ∈ remaining) : b ∈ orderFrom before remaining := by
  fun_induction orderFrom before remaining with
  | case1 remaining first h ih =>
    by_cases heq : b = first
    · rw [heq]
      exact List.mem_cons_self
    · refine List.mem_cons_of_mem _ (ih (hnodup.erase first) ?_ ((List.mem_erase_of_ne heq).2 hrem))
      rcases List.mem_cons.1 ha with rfl | ha
      · exact absurd hrem ((firstReady?_some h).2 b hb)
      · exact ha
  | case2 => cases ha

/-- The first ready element has a smaller rank than any other one that is ready. -/
theorem firstReady?_least {rank : α → Nat} (hsorted : Ranked rank remaining)
    (h : firstReady? before remaining = some a) (hb : b ∈ remaining)
    (hready : ∀ c ∈ before b, c ∉ remaining) : a = b ∨ rank a < rank b := by
  have hle : rank a ≤ rank b := hsorted.le_of_find? h hb (by simpa using hready)
  rcases Nat.lt_or_eq_of_le hle with hlt | heq
  · exact .inr hlt
  · exact .inl (hsorted.injective (firstReady?_some h).1 hb heq)

/-- Of all lists of the elements in which none comes before one that it comes after, the one that
takes the first ready element again and again has the least ranks. -/
theorem orderFrom_least {rank : α → Nat} (hsorted : Ranked rank remaining)
    (hself : ∀ a, a ∉ before a) {other : List α} (hperm : other.Perm remaining)
    (hafter : other.Pairwise fun a b => b ∉ before a) :
    other = orderFrom before remaining ∨
      List.Lex (· < ·) ((orderFrom before remaining).map rank) (other.map rank) := by
  fun_induction orderFrom before remaining generalizing other with
  | case1 remaining a h ih =>
    have hmem := (firstReady?_some h).1
    cases other with
    | nil => exact absurd (hperm.mem_iff.2 hmem) List.not_mem_nil
    | cons b rest =>
      obtain ⟨hfirst, hrest⟩ := List.pairwise_cons.1 hafter
      have hready : ∀ c ∈ before b, c ∉ remaining := by
        intro c hc hin
        rcases List.mem_cons.1 (hperm.mem_iff.2 hin) with rfl | hin
        · exact hself c hc
        · exact hfirst c hin hc
      have hb : b ∈ remaining := hperm.mem_iff.1 List.mem_cons_self
      rcases firstReady?_least hsorted h hb hready with rfl | hlt
      · -- both lists begin alike, and their rests hold the same elements
        have hrestPerm : rest.Perm (remaining.erase a) :=
          List.Perm.cons_inv (hperm.trans (List.perm_cons_erase hmem))
        rcases ih (hsorted.sublist List.erase_sublist) hrestPerm hrest with rfl | hlex
        · exact .inl rfl
        · exact .inr (.cons hlex)
      · exact .inr (.rel hlt)
  | case2 =>
    cases other with
    | nil => exact .inl rfl
    | cons b rest => exact .inr .nil

end First

namespace Graph

variable {g : Graph} {roots : OrderedSet CellId} {members order : List CellId} {a b id : CellId}

/-! ## §3. Dependency orders. -/

/-- The live roots and everything that depends on them. -/
def runSet (g : Graph) (roots : OrderedSet CellId) : Set CellId :=
  {id | ∃ r, roots.has r = true ∧ g.contains r = true ∧ ReflTransGen g.Edge r id}

theorem mem_runSet_iff (hg : g.WellFormed) : id ∈ g.runSet roots ↔ id ∈ g.descendants roots :=
  (mem_descendants hg).symm

/-- A list of all cells of a set, each once, in which every cell comes after those of the set that
it depends on. -/
structure DependencyOrder (g : Graph) (members : Set CellId) (order : List CellId) : Prop where
  nodup : order.Nodup
  mem_iff : ∀ id, id ∈ order ↔ id ∈ members
  parents_first : ∀ a b, g.Edge a b → a ∈ members → b ∈ members → order.idxOf a < order.idxOf b

theorem DependencyOrder.pairwise {members : Set CellId} (h : g.DependencyOrder members order) :
    order.Pairwise fun a b => ¬ g.Edge b a := by
  refine List.pairwise_iff_getElem.2 fun i j hi hj hij hedge => ?_
  have hlt := h.parents_first _ _ hedge ((h.mem_iff _).1 (List.getElem_mem hj))
    ((h.mem_iff _).1 (List.getElem_mem hi))
  rw [h.nodup.idxOf_getElem, h.nodup.idxOf_getElem] at hlt
  omega

/-- In a list where no cell comes before one that it depends on, parents come first. -/
theorem idxOf_lt_of_pairwise (h : order.Pairwise fun a b => ¬ g.Edge b a) (hedge : g.Edge a b)
    (ha : a ∈ order) (hb : b ∈ order) : order.idxOf a < order.idxOf b := by
  have hia := List.idxOf_lt_length_iff.2 ha
  have hib := List.idxOf_lt_length_iff.2 hb
  rcases Nat.lt_trichotomy (order.idxOf a) (order.idxOf b) with hlt | heq | hgt
  · exact hlt
  · exact absurd ((List.idxOf_inj ha).1 heq) hedge.ne
  · have hnot := List.pairwise_iff_getElem.1 h _ _ hib hia hgt
    rw [List.getElem_idxOf, List.getElem_idxOf] at hnot
    exact absurd hedge hnot

/-! ## §4. The order that is taken. -/

theorem mem_orderOf_of_edge (hg : g.WellFormed) (hnodup : members.Nodup)
    (hb : b ∈ g.orderOf members) (hedge : g.Edge a b) (ha : a ∈ members) :
    a ∈ g.orderOf members := by
  refine mem_orderFrom_of_before hnodup hb ?_ ha
  rw [listed_tabulate _ (orderOf_subset hb)]
  exact (mem_parents hg).2 hedge

/-- No cell on a cycle is ordered, when with the cell all that it reaches is among the members. -/
theorem not_mem_orderOf_of_onCycle (hg : g.WellFormed) (hnodup : members.Nodup)
    (hclosed : ∀ b, ReflTransGen g.Edge id b → b ∈ members) (h : g.OnCycle id) :
    id ∉ g.orderOf members := by
  intro hid
  -- along a path from the cell every step goes to a later place in the order
  have hlater : ∀ b, TransGen g.Edge id b → b ∈ g.orderOf members →
      (g.orderOf members).idxOf id < (g.orderOf members).idxOf b := by
    intro b hpath
    induction hpath with
    | single hedge =>
      intro hb
      exact idxOf_lt_of_pairwise (orderOf_pairwise hg) hedge hid hb
    | tail hpath hedge ih =>
      intro hc
      have hb := mem_orderOf_of_edge hg hnodup hc hedge (hclosed _ hpath.to_reflTransGen)
      exact (ih hb).trans (idxOf_lt_of_pairwise (orderOf_pairwise hg) hedge hb hc)
  exact Nat.lt_irrefl _ (hlater id h hid)

theorem not_mem_orderOf_descendants (hg : g.WellFormed) (hid : id ∈ g.descendants roots)
    (h : g.OnCycle id) : id ∉ g.orderOf (g.descendants roots) :=
  not_mem_orderOf_of_onCycle hg (descendants_nodup hg)
    (fun _ hpath => descendants_closed hg hid hpath) h

/-- What is ordered of some members is shorter than them when a member is left out. -/
theorem length_orderOf_lt (hnodup : members.Nodup) (hid : id ∈ members)
    (hout : id ∉ g.orderOf members) : (g.orderOf members).length < members.length := by
  have hsub : g.orderOf members ⊆ members.erase id := by
    intro b hb
    refine (List.mem_erase_of_ne fun heq => ?_).2 (orderOf_subset hb)
    exact hout (heq ▸ hb)
  have hle := (List.subperm_of_subset (orderOf_nodup hnodup) hsub).length_le
  rw [List.length_erase_of_mem hid] at hle
  have := List.length_pos_of_mem hid
  omega

/-- Something is left out just when a run-set has a cycle. -/
theorem length_orderOf_lt_iff (hg : g.WellFormed) (roots : OrderedSet CellId) :
    (g.orderOf (g.descendants roots)).length < (g.descendants roots).length ↔
      ∃ id ∈ g.descendants roots, g.OnCycle id := by
  constructor
  · intro hlt
    by_contra hnone
    have hfree : ∀ a ∈ g.descendants roots, ¬ g.OnCycle a := fun a ha hon => hnone ⟨a, ha, hon⟩
    have hle := (List.subperm_of_subset (descendants_nodup hg)
      (orderOf_complete hg (descendants_nodup hg) hfree)).length_le
    omega
  · intro hex
    obtain ⟨id, hid, hon⟩ := hex
    exact length_orderOf_lt (descendants_nodup hg) hid (not_mem_orderOf_descendants hg hid hon)

/-- A run has an order unless its run-set has a cycle. -/
theorem topologicalOrder_eq_ok_iff (hg : g.WellFormed) : g.topologicalOrder roots = .ok order ↔
    (∀ id ∈ g.descendants roots, ¬ g.OnCycle id) ∧ order = g.orderOf (g.descendants roots) := by
  have hcases := length_orderOf_lt_iff hg roots
  unfold topologicalOrder
  dsimp only
  split
  · rename_i hlt
    obtain ⟨id, hid, hon⟩ := hcases.1 hlt
    simp only [reduceCtorEq, false_iff, not_and]
    exact fun hfree => absurd hon (hfree id hid)
  · rename_i hge
    rw [Except.ok.injEq, eq_comm]
    refine (and_iff_right fun id hid hon => ?_).symm
    exact hge (hcases.2 ⟨id, hid, hon⟩)

/-- With a cycle in the run-set a shortest cycle among the cells left out is reported. -/
theorem topologicalOrder_eq_error_iff (hg : g.WellFormed) {cycle : List CellId} :
    g.topologicalOrder roots = .error cycle ↔ (∃ id ∈ g.descendants roots, g.OnCycle id) ∧
      cycle = g.shortestCycle ((g.descendants roots).filter fun id =>
        !(g.orderOf (g.descendants roots)).contains id) := by
  rw [← length_orderOf_lt_iff hg]
  unfold topologicalOrder
  dsimp only
  split
  · rename_i hlt
    rw [Except.error.injEq, eq_comm]
    exact (and_iff_right hlt).symm
  · rename_i hge
    simp [hge]

/-- Where there is no cycle the members are put in a dependency order. -/
theorem dependencyOrder_orderOf (hg : g.WellFormed) (hnodup : members.Nodup)
    (hacyclic : ∀ a ∈ members, ¬ g.OnCycle a) :
    g.DependencyOrder {id | id ∈ members} (g.orderOf members) where
  nodup := orderOf_nodup hnodup
  mem_iff := fun _ => ⟨fun h => orderOf_subset h, fun h => orderOf_complete hg hnodup hacyclic h⟩
  parents_first := fun _ _ hedge ha hb =>
    idxOf_lt_of_pairwise (orderOf_pairwise hg) hedge (orderOf_complete hg hnodup hacyclic ha)
      (orderOf_complete hg hnodup hacyclic hb)

/-- Any other dependency order of the members has later places. -/
theorem orderOf_least (hg : g.WellFormed) (hsorted : Ranked g.place members) {other : List CellId}
    (hother : g.DependencyOrder {id | id ∈ members} other) :
    other = g.orderOf members ∨
      List.Lex (· < ·) ((g.orderOf members).map g.place) (other.map g.place) := by
  have hbefore : ∀ a, ∀ b ∈ listed (Table.tabulate members g.parents) a, g.Edge b a := by
    intro a b hb
    by_cases ha : a ∈ members
    · rw [listed_tabulate _ ha] at hb
      exact (mem_parents hg).1 hb
    · rw [listed_eq_nil _ ha] at hb
      cases hb
  refine orderFrom_least hsorted (fun a ha => (hbefore a a ha).ne rfl) ?_ ?_
  · exact (List.perm_ext_iff_of_nodup hother.nodup hsorted.nodup).2 hother.mem_iff
  · exact hother.pairwise.imp fun hnot hin => hnot (hbefore _ _ hin)

end Graph

end Notebook
