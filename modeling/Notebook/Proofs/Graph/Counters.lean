/-
  Notebook.Proofs.Graph.Counters — counting down edges gives the order of the first ready cell.

  While cells are taken, the counter of a member is the number of its parents that remain, and the
  queue holds the remaining cells without remaining parents, the earliest first.  Taking the first
  of the queue and counting down its edges keeps this true for one cell less: a child had the cell
  among its remaining parents, so its counter is not at zero, and it joins the queue just when the
  cell was the last one.  The queue therefore begins with the first ready cell, and the order is the
  one that `orderOf` takes.

  Main results:
    * `ranked_ids` / `byPlace_eq` — live cells have different places, so they can be sorted in one
      way only,
    * `get?_countDown` / `countDown_queue` — what counting down does,
    * `Tallied.firstReady?` / `Tallied.step` — the queue begins with the first ready cell, and
      taking a cell keeps the counters and the queue right,
    * `Exact.order_eq` — so the order is that of the graph without indices.
-/
import Mathlib.Data.List.Count
import Notebook.Proofs.Graph.Index
import Notebook.Proofs.Graph.Orders

namespace Notebook

namespace IndexedGraph

variable {g : IndexedGraph} {a b id : CellId} {ids cells remaining : List CellId}
  {members : OrderedSet CellId} {counters : Table CellId Nat} {ready : List (Nat × CellId)}

/-! ## §1. Places. -/

theorem place_of_cell? {c : Cell} (hc : g.cell? id = some c) : g.place id = c.index := by
  simp [Graph.place, hc]

/-- The live cells are listed by their places. -/
theorem Exact.ranked_ids (h : g.Exact) : Ranked g.place g.ids := by
  refine List.pairwise_map.2 (h.numbered.ascending.imp_of_mem fun {c d} hc hd hlt => ?_)
  rw [place_of_cell? (h.wellFormed.cell?_eq hc), place_of_cell? (h.wellFormed.cell?_eq hd)]
  exact hlt

/-- Live cells have different places. -/
theorem Exact.place_injective (h : g.Exact) (ha : g.contains a = true) (hb : g.contains b = true)
    (heq : g.place a = g.place b) : a = b :=
  h.ranked_ids.injective (Graph.mem_ids.2 ha) (Graph.mem_ids.2 hb) heq

/-- The members of a set of live cells are picked from the list of all. -/
theorem Exact.toList_perm (h : g.Exact)
    (hlive : ∀ id, members.has id = true → g.contains id = true) :
    members.toList.Perm (g.ids.filter members.has) := by
  refine (List.perm_ext_iff_of_nodup (OrderedSet.toList_nodup members)
    (h.wellFormed.ids_nodup.sublist List.filter_sublist)).2 fun a => ?_
  rw [OrderedSet.mem_toList, List.mem_filter, Graph.mem_ids]
  exact ⟨fun ha => ⟨hlive a ha, ha⟩, fun ha => ha.2⟩

/-- Sorted by their places they come as in the list of all. -/
theorem Exact.byPlace_eq (h : g.Exact)
    (hlive : ∀ id, members.has id = true → g.contains id = true) :
    g.byPlace members.toList = g.ids.filter members.has := by
  have hperm : (g.byPlace members.toList).Perm members.toList := List.mergeSort_perm _ _
  have hsorted : (g.byPlace members.toList).Pairwise fun a b => g.place a ≤ g.place b :=
    pairwise_mergeSort_rank g.place _
  have hmember : ∀ a ∈ g.byPlace members.toList, g.contains a = true := fun a ha =>
    hlive a (OrderedSet.mem_toList.1 (hperm.mem_iff.1 ha))
  have hnodup := hperm.nodup_iff.2 (OrderedSet.toList_nodup members)
  have hranked : Ranked g.place (g.byPlace members.toList) := by
    refine (hsorted.and hnodup).imp_of_mem fun {a b} ha hb hab => ?_
    -- equal places would make the cells equal
    refine lt_of_le_of_ne hab.1 fun heq => hab.2 ?_
    exact h.place_injective (hmember a ha) (hmember b hb) heq
  refine hranked.eq_of_mem_iff (h.ranked_ids.sublist List.filter_sublist) fun a => ?_
  exact (hperm.trans (h.toList_perm hlive)).mem_iff

/-! ## §2. Queues. -/

theorem mem_enqueue {entry e : Nat × CellId} :
    e ∈ enqueue entry ready ↔ e = entry ∨ e ∈ ready := by
  induction ready with
  | nil => simp [enqueue]
  | cons first rest ih =>
    unfold enqueue
    split
    · rw [List.mem_cons]
    · rw [List.mem_cons, ih, List.mem_cons]
      exact or_left_comm

/-- An entry with a place of its own goes where its place is. -/
theorem ranked_enqueue {entry : Nat × CellId} (h : Ranked Prod.fst ready)
    (hnew : ∀ e ∈ ready, e.1 ≠ entry.1) : Ranked Prod.fst (enqueue entry ready) := by
  induction ready with
  | nil => exact List.pairwise_singleton _ _
  | cons first rest ih =>
    obtain ⟨hfirst, hrest⟩ := List.pairwise_cons.1 h
    have hne := hnew first List.mem_cons_self
    unfold enqueue
    split
    · rename_i hprecedes
      have hlt : entry.1 < first.1 := by
        simp only [precedes, Bool.or_eq_true, decide_eq_true_eq, Bool.and_eq_true,
          beq_iff_eq] at hprecedes
        omega
      refine List.pairwise_cons.2 ⟨fun e he => ?_, h⟩
      rcases List.mem_cons.1 he with rfl | he
      · exact hlt
      · exact hlt.trans (hfirst e he)
    · rename_i hprecedes
      have hgt : first.1 < entry.1 := by
        simp only [precedes, Bool.or_eq_true, decide_eq_true_eq, not_or] at hprecedes
        omega
      refine List.pairwise_cons.2 ⟨fun e he => ?_,
        ih hrest fun e he => hnew e (List.mem_cons_of_mem _ he)⟩
      rcases mem_enqueue.1 he with rfl | he
      · exact hgt
      · exact hfirst e he

theorem mem_enqueueAll {e : Nat × CellId} :
    e ∈ g.enqueueAll ids ready ↔ e ∈ ready ∨ ∃ id ∈ ids, e = (g.place id, id) := by
  unfold enqueueAll
  induction ids generalizing ready with
  | nil => simp
  | cons first rest ih =>
    rw [List.foldl_cons, ih, mem_enqueue]
    simp only [List.mem_cons, exists_eq_or_imp]
    tauto

theorem ranked_enqueueAll (h : Ranked Prod.fst ready) (hnodup : (ids.map g.place).Nodup)
    (hnew : ∀ e ∈ ready, ∀ id ∈ ids, e.1 ≠ g.place id) :
    Ranked Prod.fst (g.enqueueAll ids ready) := by
  unfold enqueueAll
  induction ids generalizing ready with
  | nil => exact h
  | cons first rest ih =>
    obtain ⟨hfirst, hrest⟩ := List.nodup_cons.1 hnodup
    refine ih (ranked_enqueue h fun e he => hnew e he first List.mem_cons_self) hrest ?_
    intro e he id hid
    rcases mem_enqueue.1 he with rfl | he
    · intro heq
      have heq : g.place first = g.place id := heq
      exact hfirst (heq ▸ List.mem_map_of_mem hid)
    · exact hnew e he id (List.mem_cons_of_mem _ hid)

/-! ## §3. Counters. -/

theorem get?_insert_of_notMem {child : CellId} {left : Nat} (hchild : child ∉ ids) (ha : a ∈ ids) :
    (counters.insert child left).get? a = counters.get? a := by
  rw [Table.get?_insert, if_neg]
  rintro rfl
  exact hchild ha

/-- Counting down the edges to different children takes one from the counter of each. -/
theorem get?_countDown (hnodup : ids.Nodup) (hpos : ∀ id ∈ ids, counters.get? id ≠ some 0) :
    (g.countDown ids counters ready).1.get? a =
      if a ∈ ids then (counters.get? a).map (· - 1) else counters.get? a := by
  fun_induction g.countDown ids counters ready with
  | case1 => simp
  | case2 child rest counters ready hone ih =>
    obtain ⟨hchild, hrest⟩ := List.nodup_cons.1 hnodup
    have hlater : ∀ id ∈ rest, (counters.insert child 0).get? id ≠ some 0 := by
      intro id hid
      rw [get?_insert_of_notMem hchild hid]
      exact hpos id (List.mem_cons_of_mem _ hid)
    rw [ih hrest hlater, Table.get?_insert]
    by_cases ha : a = child
    · subst ha
      simp [hchild, hone]
    · simp [ha]
  | case3 child rest counters ready left hleft ih =>
    obtain ⟨hchild, hrest⟩ := List.nodup_cons.1 hnodup
    have hlater : ∀ id ∈ rest, (counters.insert child (left + 1)).get? id ≠ some 0 := by
      intro id hid
      rw [get?_insert_of_notMem hchild hid]
      exact hpos id (List.mem_cons_of_mem _ hid)
    rw [ih hrest hlater, Table.get?_insert]
    by_cases ha : a = child
    · subst ha
      simp [hchild, hleft]
    · simp [ha]
  | case4 child rest counters ready hone hmore ih =>
    obtain ⟨hchild, hrest⟩ := List.nodup_cons.1 hnodup
    rw [ih hrest fun id hid => hpos id (List.mem_cons_of_mem _ hid)]
    by_cases ha : a = child
    · subst ha
      -- the counter is neither at zero nor above it, so there is none
      have hnone : counters.get? a = none := by
        rcases hget : counters.get? a with _ | _ | _ | left
        · rfl
        · exact absurd hget (hpos a List.mem_cons_self)
        · exact absurd hget hone
        · exact absurd hget (hmore left)
      simp [hchild, hnone]
    · simp [ha]

/-- The children whose last edge is counted down join the queue. -/
theorem countDown_queue (hnodup : ids.Nodup) : (g.countDown ids counters ready).2 =
    g.enqueueAll (ids.filter fun id => counters.get? id == some 1) ready := by
  fun_induction g.countDown ids counters ready with
  | case1 => rfl
  | case2 child rest counters ready hone ih =>
    obtain ⟨hchild, hrest⟩ := List.nodup_cons.1 hnodup
    have hsame : (rest.filter fun id => (counters.insert child 0).get? id == some 1) =
        rest.filter fun id => counters.get? id == some 1 :=
      List.filter_congr fun id hid => by rw [get?_insert_of_notMem hchild hid]
    rw [ih hrest, List.filter_cons_of_pos (by simp [hone]), hsame]
    rfl
  | case3 child rest counters ready left hleft ih =>
    obtain ⟨hchild, hrest⟩ := List.nodup_cons.1 hnodup
    have hsame : (rest.filter fun id => (counters.insert child (left + 1)).get? id == some 1) =
        rest.filter fun id => counters.get? id == some 1 :=
      List.filter_congr fun id hid => by rw [get?_insert_of_notMem hchild hid]
    rw [ih hrest, List.filter_cons_of_neg (by simp [hleft]), hsame]
  | case4 child rest counters ready hone hmore ih =>
    obtain ⟨hchild, hrest⟩ := List.nodup_cons.1 hnodup
    rw [ih hrest, List.filter_cons_of_neg (by simpa using hone)]

/-- A counter counts how often a child is listed. -/
theorem get?_foldl_modify (counters : Table CellId Nat) (children : List CellId) :
    (children.foldl (fun counters child => counters.modify child (· + 1)) counters).get? a =
      (counters.get? a).map (· + children.count a) := by
  induction children generalizing counters with
  | nil => simp
  | cons first rest ih =>
    rw [List.foldl_cons, ih, Table.get?_modify]
    by_cases ha : a = first
    · subst ha
      cases counters.get? a with
      | none => simp
      | some n =>
        simp only [if_true, Option.map_some, List.count_cons_self, Option.some.injEq]
        omega
    · rw [if_neg ha, List.count_cons_of_ne (Ne.symm ha)]

theorem Exact.children_nodup (h : g.Exact) (id : CellId) : (g.children id).Nodup :=
  h.wellFormed.ids_nodup.sublist List.filter_sublist

/-- A cell is listed among the children of others as often as it has parents among them. -/
theorem count_flatMap_children (h : g.Exact) (cells : List CellId) :
    (cells.flatMap g.children).count a = cells.countP fun p => decide (p ∈ g.parents a) := by
  induction cells with
  | nil => rfl
  | cons first rest ih =>
    have hmem : a ∈ g.children first ↔ first ∈ g.parents a := by
      rw [h.children_eq, h.parents_eq, Graph.mem_children h.wellFormed,
        Graph.mem_parents h.wellFormed]
    rw [List.flatMap_cons, List.count_append, (h.children_nodup first).count, ih, List.countP_cons,
      Nat.add_comm]
    simp [hmem]

theorem get?_counters (h : g.Exact) : (g.counters members).get? a =
    if members.has a = true then
      some (members.toList.countP fun p => decide (p ∈ g.parents a)) else none := by
  unfold IndexedGraph.counters
  rw [get?_foldl_modify, Table.get?_tabulate, count_flatMap_children h]
  by_cases ha : members.has a = true <;> simp [ha, OrderedSet.mem_toList]

/-! ## §4. Taking one cell after the other. -/

/-- The counters and the queue are right for the cells that remain of the members. -/
structure Tallied (g : IndexedGraph) (members : OrderedSet CellId) (remaining : List CellId)
    (counters : Table CellId Nat) (ready : List (Nat × CellId)) : Prop where
  ranked : Ranked g.place remaining
  live : ∀ id ∈ remaining, members.has id = true ∧ g.contains id = true
  /-- A counter counts the parents that remain. -/
  counter : ∀ id, counters.get? id = if members.has id = true then
    some (remaining.countP fun p => decide (p ∈ g.parents id)) else none
  /-- A member that was taken has no parent that remains. -/
  taken : ∀ id, members.has id = true → id ∉ remaining → ∀ p ∈ remaining, ¬ g.Edge p id
  queue : Ranked Prod.fst ready
  mem_queue : ∀ e, e ∈ ready ↔
    ∃ id ∈ remaining, (∀ p ∈ remaining, ¬ g.Edge p id) ∧ e = (g.place id, id)

/-- A remaining cell is queued when no parent of it remains. -/
theorem Tallied.mem_queue_iff (ht : g.Tallied members remaining counters ready)
    (hid : id ∈ remaining) :
    (g.place id, id) ∈ ready ↔ ∀ p ∈ remaining, ¬ g.Edge p id := by
  rw [ht.mem_queue]
  constructor
  · intro hex
    obtain ⟨id', -, hfree, heq⟩ := hex
    obtain ⟨-, rfl⟩ := Prod.mk.inj heq
    exact hfree
  · intro hfree
    exact ⟨id, hid, hfree, rfl⟩

/-- The queue begins with the first ready cell. -/
theorem Tallied.firstReady? (ht : g.Tallied members remaining counters ready)
    {before : CellId → List CellId} (hbefore : ∀ id ∈ remaining, ∀ p, p ∈ before id ↔ g.Edge p id) :
    firstReady? before remaining = ready.head?.map (·.2) := by
  have hready : ∀ id ∈ remaining, (g.place id, id) ∈ ready ↔ ∀ c ∈ before id, c ∉ remaining := by
    intro id hid
    rw [ht.mem_queue_iff hid]
    constructor
    · intro hfree c hc hin
      exact hfree c hin ((hbefore id hid c).1 hc)
    · intro hfree p hp hedge
      exact hfree p ((hbefore id hid p).2 hedge) hp
  cases hfirst : Notebook.firstReady? before remaining with
  | none =>
    -- without a ready cell the queue is empty
    cases hqueue : ready with
    | nil => rfl
    | cons e rest =>
      obtain ⟨id, hid, -, rfl⟩ := (ht.mem_queue e).1 (hqueue ▸ List.mem_cons_self)
      obtain ⟨c, hc, hcin⟩ := firstReady?_none hfirst hid
      exact absurd hcin ((hready id hid).1 (hqueue ▸ List.mem_cons_self) c hc)
  | some a =>
    obtain ⟨ha, hafree⟩ := firstReady?_some hfirst
    have hain := (hready a ha).2 hafree
    cases hqueue : ready with
    | nil =>
      rw [hqueue] at hain
      cases hain
    | cons e rest =>
      obtain ⟨id, hid, -, rfl⟩ := (ht.mem_queue e).1 (hqueue ▸ List.mem_cons_self)
      have hidin : (g.place id, id) ∈ ready := hqueue ▸ List.mem_cons_self
      -- the first ready cell and the head of the queue are both the earliest one
      rcases firstReady?_least ht.ranked hfirst hid ((hready id hid).1 hidin) with rfl | hlt
      · rfl
      · rw [hqueue] at hain
        rcases List.mem_cons.1 hain with heq | hlater
        · exact congrArg some (Prod.mk.inj heq).2
        · have hsorted := hqueue ▸ ht.queue
          have hgt := (List.pairwise_cons.1 hsorted).1 _ hlater
          omega

section Taking

variable (h : g.Exact) (ht : g.Tallied members remaining counters ready) (hid : id ∈ remaining)

include ht hid in
/-- A member that depends on a remaining cell remains itself. -/
theorem Tallied.child_remains (hedge : g.Edge id a) (ha : members.has a = true) :
    a ∈ remaining.erase id := by
  refine ht.ranked.nodup.mem_erase_iff.2 ⟨hedge.ne.symm, ?_⟩
  by_contra hout
  exact ht.taken a ha hout id hid hedge

include h ht hid in
/-- When a cell is taken, the counters of its children are above zero. -/
theorem Tallied.counter_ne_zero (hedge : g.Edge id a) : counters.get? a ≠ some 0 := by
  intro hget
  rw [ht.counter] at hget
  split at hget
  · have hzero := List.countP_eq_zero.1 (Option.some.inj hget) id hid
    rw [h.parents_eq, decide_eq_true_iff, Graph.mem_parents h.wellFormed] at hzero
    exact hzero hedge
  · cases hget

include h hid in
/-- Once a cell is taken, a cell that depends on it has one parent less that remains. -/
theorem countP_parents_erase (a : CellId) [Decidable (g.Edge id a)] :
    (remaining.erase id).countP (fun p => decide (p ∈ g.parents a)) =
      (remaining.countP fun p => decide (p ∈ g.parents a)) - if g.Edge id a then 1 else 0 := by
  rw [List.countP_erase]
  simp [hid, h.parents_eq, Graph.mem_parents h.wellFormed]

include h ht hid in
/-- The counters after the edges of a taken cell were counted down. -/
theorem Tallied.counter_countDown (rest : List (Nat × CellId)) (a : CellId) :
    (g.countDown (g.children id) counters rest).1.get? a = if members.has a = true then
      some ((remaining.erase id).countP fun p => decide (p ∈ g.parents a)) else none := by
  classical
  have hg := h.wellFormed
  have hmem : ∀ b, b ∈ g.children id ↔ g.Edge id b := fun b => by
    rw [h.children_eq, Graph.mem_children hg]
  rw [get?_countDown (h.children_nodup id) fun b hb => ht.counter_ne_zero h hid ((hmem b).1 hb),
    ht.counter, countP_parents_erase h hid]
  by_cases ha : members.has a = true <;> by_cases hedge : g.Edge id a <;> simp [ha, hedge, hmem]

include h ht hid in
/-- The cells that join the queue are those that wait for the taken cell alone. -/
theorem Tallied.mem_freed : a ∈ (g.children id).filter (fun a => counters.get? a == some 1) ↔
    g.Edge id a ∧ a ∈ remaining.erase id ∧ ∀ p ∈ remaining.erase id, ¬ g.Edge p a := by
  classical
  have hg := h.wellFormed
  rw [List.mem_filter, beq_iff_eq, h.children_eq, Graph.mem_children hg]
  refine and_congr_right fun hedge => ?_
  -- the counter is one above the number of parents that remain without the taken cell
  have hcount := countP_parents_erase h hid a
  have hne := ht.counter_ne_zero h hid hedge
  have hzero : ((remaining.erase id).countP fun p => decide (p ∈ g.parents a)) = 0 ↔
      ∀ p ∈ remaining.erase id, ¬ g.Edge p a := by
    simp [List.countP_eq_zero, h.parents_eq, Graph.mem_parents hg]
  rw [if_pos hedge] at hcount
  rw [ht.counter] at hne ⊢
  by_cases ha : members.has a = true
  · rw [if_pos ha, ne_eq, Option.some.injEq] at hne
    rw [if_pos ha, Option.some.injEq, ← hzero, and_iff_right (ht.child_remains hid hedge ha)]
    omega
  · rw [if_neg ha]
    refine iff_of_false (by simp) fun hin => ha ?_
    exact (ht.live a (List.mem_of_mem_erase hin.1)).1

end Taking

section Head

variable (h : g.Exact) {first : Nat × CellId} {rest : List (Nat × CellId)}

include h in
/-- The cells that join the queue come to their places. -/
theorem Tallied.ranked_queue (ht : g.Tallied members remaining counters (first :: rest))
    (hid : id ∈ remaining) : Ranked Prod.fst (g.countDown (g.children id) counters rest).2 := by
  have hinjective : ∀ a ∈ remaining, ∀ b ∈ remaining, g.place a = g.place b → a = b :=
    fun a ha b hb => h.place_injective (ht.live a ha).2 (ht.live b hb).2
  have hfreed := fun a => ht.mem_freed (a := a) h hid
  rw [countDown_queue (h.children_nodup id)]
  refine ranked_enqueueAll (List.pairwise_cons.1 ht.queue).2 ?_ fun e he a ha heq => ?_
  · refine List.Nodup.map_on (fun a ha b hb => ?_) ((h.children_nodup id).filter _)
    exact hinjective a (List.mem_of_mem_erase ((hfreed a).1 ha).2.1) b
      (List.mem_of_mem_erase ((hfreed b).1 hb).2.1)
  · -- what is queued already has no remaining parent, and the child has one
    obtain ⟨hedge, ha, -⟩ := (hfreed a).1 ha
    obtain ⟨b, hb, hbfree, rfl⟩ := (ht.mem_queue e).1 (List.mem_cons_of_mem _ he)
    obtain rfl := hinjective b hb a (List.mem_of_mem_erase ha) heq
    exact hbfree id hid hedge

include h in
/-- Without the taken cell the queue holds the remaining cells without remaining parents again. -/
theorem Tallied.mem_queue_after
    (ht : g.Tallied members remaining counters ((g.place id, id) :: rest)) (hid : id ∈ remaining)
    (e : Nat × CellId) : e ∈ (g.countDown (g.children id) counters rest).2 ↔
      ∃ a ∈ remaining.erase id, (∀ p ∈ remaining.erase id, ¬ g.Edge p a) ∧ e = (g.place a, a) := by
  have herase : ∀ a, a ∈ remaining.erase id ↔ a ≠ id ∧ a ∈ remaining := fun a =>
    ht.ranked.nodup.mem_erase_iff
  have hfreed := fun a => ht.mem_freed (a := a) h hid
  rw [countDown_queue (h.children_nodup id), mem_enqueueAll]
  constructor
  · intro hjoined
    rcases hjoined with he | ⟨a, ha, rfl⟩
    · obtain ⟨b, hb, hbfree, rfl⟩ := (ht.mem_queue e).1 (List.mem_cons_of_mem _ he)
      have hbid : b ≠ id := by
        rintro rfl
        exact Nat.lt_irrefl _ ((List.pairwise_cons.1 ht.queue).1 _ he)
      exact ⟨b, (herase b).2 ⟨hbid, hb⟩, fun p hp => hbfree p (List.mem_of_mem_erase hp), rfl⟩
    · obtain ⟨-, hin, hafree⟩ := (hfreed a).1 ha
      exact ⟨a, hin, hafree, rfl⟩
  · intro hready
    obtain ⟨a, ha, hafree, rfl⟩ := hready
    by_cases hedge : g.Edge id a
    · exact .inr ⟨a, (hfreed a).2 ⟨hedge, ha, hafree⟩, rfl⟩
    · -- no parent remained before either, so the cell was queued already
      obtain ⟨haid, harem⟩ := (herase a).1 ha
      have hin : (g.place a, a) ∈ (g.place id, id) :: rest := by
        refine (ht.mem_queue_iff harem).2 fun p hp hpedge => ?_
        by_cases hpid : p = id
        · exact hedge (hpid ▸ hpedge)
        · exact hafree p ((herase p).2 ⟨hpid, hp⟩) hpedge
      rcases List.mem_cons.1 hin with heq | hin
      · exact absurd (Prod.mk.inj heq).2 haid
      · exact .inl hin

end Head

/-- Taking the first cell of the queue and counting down its edges keeps everything right. -/
theorem Tallied.step (h : g.Exact) {place : Nat} {rest : List (Nat × CellId)}
    (ht : g.Tallied members remaining counters ((place, id) :: rest)) :
    g.Tallied members (remaining.erase id) (g.countDown (g.children id) counters rest).1
      (g.countDown (g.children id) counters rest).2 := by
  obtain ⟨id', hid, hfree, heq⟩ := (ht.mem_queue (place, id)).1 List.mem_cons_self
  obtain ⟨rfl, rfl⟩ := Prod.mk.inj heq
  refine
    { ranked := ht.ranked.sublist List.erase_sublist
      live := fun a ha => ht.live a (List.mem_of_mem_erase ha)
      counter := ht.counter_countDown h hid rest
      taken := fun a ha hout p hp hedge => ?_
      queue := ht.ranked_queue h hid
      mem_queue := ht.mem_queue_after h hid }
  have hp := List.mem_of_mem_erase hp
  by_cases haid : a = id
  · exact hfree p hp (haid ▸ hedge)
  · exact ht.taken a ha (fun hin => hout ((List.mem_erase_of_ne haid).2 hin)) p hp hedge

/-- Counting down takes the first ready cell again and again. -/
theorem Tallied.drain_eq (h : g.Exact) (ht : g.Tallied members remaining counters ready)
    {before : CellId → List CellId} (hbefore : ∀ id ∈ remaining, ∀ p, p ∈ before id ↔ g.Edge p id) :
    g.drain counters ready = orderFrom before remaining := by
  fun_induction orderFrom before remaining generalizing counters ready with
  | case1 remaining a hfirst ih =>
    have hhead := ht.firstReady? hbefore
    rw [hfirst] at hhead
    cases ready with
    | nil => cases hhead
    | cons e rest =>
      obtain ⟨place, id⟩ := e
      obtain rfl : a = id := Option.some.inj hhead
      unfold drain
      dsimp only
      rw [ih (ht.step h) fun id hid => hbefore id (List.mem_of_mem_erase hid)]
  | case2 remaining hnone =>
    have hhead := ht.firstReady? hbefore
    rw [hnone] at hhead
    cases ready with
    | nil => unfold drain; rfl
    | cons e rest => cases hhead

/-- At first everything remains. -/
theorem Exact.tallied (h : g.Exact) (hlive : ∀ id, members.has id = true → g.contains id = true) :
    g.Tallied members (g.ids.filter members.has) (g.counters members)
      (g.enqueueAll (members.toList.filter fun id => (g.counters members).get? id == some 0)
        []) := by
  have hperm := h.toList_perm hlive
  have hcounter : ∀ a, (g.counters members).get? a = if members.has a = true then
      some ((g.ids.filter members.has).countP fun p => decide (p ∈ g.parents a)) else none := by
    intro a
    rw [get?_counters h, hperm.countP_eq]
  have hzero : ∀ a, members.has a = true → ((g.counters members).get? a = some 0 ↔
      ∀ p ∈ g.ids.filter members.has, ¬ g.Edge p a) := by
    intro a ha
    rw [hcounter, if_pos ha, Option.some.injEq, List.countP_eq_zero]
    simp only [decide_eq_true_eq, h.parents_eq, Graph.mem_parents h.wellFormed]
  refine
    { ranked := h.ranked_ids.sublist List.filter_sublist
      live := fun a ha => ?_
      counter := hcounter
      taken := fun a ha hout => ?_
      queue := ?_
      mem_queue := fun e => ?_ }
  · obtain ⟨hin, ha⟩ := List.mem_filter.1 ha
    exact ⟨ha, Graph.mem_ids.1 hin⟩
  · exact absurd (List.mem_filter.2 ⟨Graph.mem_ids.2 (hlive a ha), ha⟩) hout
  · refine ranked_enqueueAll List.Pairwise.nil ?_ fun e he => absurd he List.not_mem_nil
    refine List.Nodup.map_on (fun a ha b hb => ?_) ((OrderedSet.toList_nodup members).filter _)
    exact h.place_injective (hlive a (OrderedSet.mem_toList.1 (List.mem_filter.1 ha).1))
      (hlive b (OrderedSet.mem_toList.1 (List.mem_filter.1 hb).1))
  · rw [mem_enqueueAll, or_iff_right List.not_mem_nil]
    refine exists_congr fun a => ?_
    rw [List.mem_filter, beq_iff_eq, hperm.mem_iff, and_assoc]
    refine and_congr_right fun ha => and_congr_left fun _ => hzero a (List.mem_filter.1 ha).2

/-- The order is the one that the graph has without indices. -/
theorem Exact.order_eq (h : g.Exact) (hlive : ∀ id, members.has id = true → g.contains id = true) :
    g.order members = g.toGraph.orderOf (g.ids.filter members.has) := by
  refine (h.tallied hlive).drain_eq h fun id hid p => ?_
  rw [Graph.listed_tabulate _ hid, Graph.mem_parents h.wellFormed]

end IndexedGraph

end Notebook
