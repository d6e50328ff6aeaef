/-
  Notebook.Proofs.Graph.Circuits — shortest circuits, found level by level.

  A circuit is a list in which each element steps to the next and the last to the first.  It can be
  read from any of its elements, so whatever is said of circuits through one element holds of all
  that pass through it.

  The search goes outward from a start, one level after the other.  Before a level it has met every
  element that fewer steps lead to, and of these only the ends of its paths were not looked at:
  what the others step to was met, and none of them steps back to the start.  So the first `n`
  elements of any circuit through the start are met before level `n`, and when the circuit is over
  its last element is the end of a path: the search has ended by then, with a circuit that is no
  longer.

  Main results:
    * `Circuit.rotate` — a circuit can be read from any of its elements,
    * `circuit_of_cycleThrough?` / `cycleThrough?_le` — the search finds a shortest circuit through
      the start, and finds one when there is one,
    * `ShortestCircuit` / `shortestCycle?_shortest` — of all starts the first one on a shortest
      circuit is taken,
    * `shortestCycle?_isSome` — where there is a circuit, one is found.
-/
import Mathlib.Data.List.Cycle
import Notebook.Proofs.Graph.Orders

namespace Notebook

/-! ## §1. Circuits. -/

/-- A list in which each element steps to the next, and the last to the first. -/
structure Circuit {α : Type} (step : α → α → Prop) (l : List α) : Prop where
  ne_nil : l ≠ []
  chain : l.IsChain step
  closes : step (l.getLast ne_nil) (l.head ne_nil)

section Circuits

variable {α : Type} {step : α → α → Prop} {a b : α} {l pre post : List α}

theorem circuit_cons_iff : Circuit step (a :: l) ↔ Cycle.Chain step (a :: l : List α) := by
  rw [Cycle.chain_coe_cons, ← List.cons_append, List.isChain_append]
  constructor
  · intro h
    refine ⟨h.chain, List.isChain_singleton _, fun x hx y hy => ?_⟩
    obtain rfl : a = y := by simpa using hy
    rw [List.getLast?_eq_getLast_of_ne_nil (List.cons_ne_nil a l), Option.mem_some_iff] at hx
    exact hx ▸ h.closes
  · intro h
    obtain ⟨hchain, -, hcloses⟩ := h
    refine ⟨List.cons_ne_nil a l, hchain, hcloses _ ?_ a rfl⟩
    exact List.getLast?_eq_getLast_of_ne_nil (List.cons_ne_nil a l) ▸ rfl

/-- A circuit can be read from any of its elements. -/
theorem Circuit.rotate (h : Circuit step (pre ++ a :: post)) :
    Circuit step (a :: (post ++ pre)) := by
  have hrotated : ((pre ++ a :: post : List α) : Cycle α) = (a :: (post ++ pre) : List α) :=
    Cycle.coe_eq_coe.2 List.isRotated_append
  rw [circuit_cons_iff, ← hrotated]
  cases pre with
  | nil => exact circuit_cons_iff.1 h
  | cons b rest => exact circuit_cons_iff.1 h

/-- From every element of a circuit there is a circuit of the same elements that begins with it. -/
theorem Circuit.exists_from (h : Circuit step l) (ha : a ∈ l) :
    ∃ rest, Circuit step (a :: rest) ∧ (a :: rest).Perm l := by
  obtain ⟨pre, post, rfl⟩ := List.append_of_mem ha
  have hperm : (a :: post ++ pre).Perm (pre ++ a :: post) := List.perm_append_comm
  exact ⟨post ++ pre, h.rotate, hperm⟩

/-- Each element of a circuit reaches itself. -/
theorem Circuit.transGen (h : Circuit step l) (ha : a ∈ l) : Relation.TransGen step a a := by
  obtain ⟨rest, hfrom, -⟩ := h.exists_from ha
  have hpath := List.relationReflTransGen_of_exists_isChain _ hfrom.chain hfrom.ne_nil
  exact Relation.TransGen.tail' hpath hfrom.closes

/-- Each element of a circuit reaches all others. -/
theorem Circuit.reaches (h : Circuit step l) (ha : a ∈ l) (hb : b ∈ l) :
    Relation.TransGen step a b := by
  obtain ⟨rest, hfrom, hperm⟩ := h.exists_from ha
  have hin := hperm.mem_iff.2 hb
  obtain ⟨pre, post, hsplit⟩ := List.append_of_mem hin
  rcases pre with _ | ⟨c, pre⟩
  · obtain ⟨rfl, -⟩ := List.cons.inj hsplit
    exact h.transGen ha
  · -- the beginning of the circuit up to the other element is a path
    have hchain : (a :: rest).IsChain step := hfrom.chain
    obtain ⟨rfl, hrest⟩ := List.cons.inj hsplit
    have hpre : ((a :: pre) ++ [b]).IsChain step := by
      refine List.IsChain.prefix hchain ⟨post, ?_⟩
      rw [hrest]
      simp
    have hpath := List.relationReflTransGen_of_exists_isChain _ hpre (by simp)
    rw [List.head_append_of_ne_nil (List.cons_ne_nil a pre), List.getLast_append_singleton] at hpath
    exact Relation.TransGen.trans_left (h.transGen ha) hpath

/-- Only the steps between elements of a circuit matter. -/
theorem Circuit.imp {step' : α → α → Prop} (h : Circuit step l)
    (himp : ∀ a ∈ l, ∀ b ∈ l, step a b → step' a b) : Circuit step' l where
  ne_nil := h.ne_nil
  chain := h.chain.imp_of_mem_imp fun a b ha hb => himp a ha b hb
  closes := himp _ (List.getLast_mem _) _ (List.head_mem _) h.closes

/-- An element that reaches itself lies on a circuit. -/
theorem exists_circuit (h : Relation.TransGen step a a) : ∃ rest, Circuit step (a :: rest) := by
  obtain ⟨b, hpath, hlast⟩ := Relation.TransGen.tail'_iff.1 h
  obtain ⟨rest, hchain, hend⟩ := List.exists_isChain_cons_of_relationReflTransGen hpath
  exact ⟨rest, List.cons_ne_nil a rest, hchain, hend ▸ hlast⟩

end Circuits

/-! ## §2. One level of the search. -/

section Search

variable {α : Type} [DecidableEq α] {pool : List α} {next : α → List α} {start a b : α}
  {paths : List (List α)} {met path cycle : List α} {depth levels : Nat}

theorem nextLevel_cons (last : α) (before : List α) (rest : List (List α)) (met : List α) :
    nextLevel pool next ((last :: before) :: rest) met =
      ((freshSteps pool next met last).map (fun b => b :: last :: before) ++
        (nextLevel pool next rest (met ++ freshSteps pool next met last)).1,
      (nextLevel pool next rest (met ++ freshSteps pool next met last)).2) := rfl

/-- A new path extends an old one by a step to an element that was not met. -/
theorem exists_of_mem_nextLevel (h : path ∈ (nextLevel pool next paths met).1) :
    ∃ b last before, path = b :: last :: before ∧ last :: before ∈ paths ∧ b ∈ next last ∧
      b ∈ pool ∧ b ∉ met := by
  induction paths generalizing met with
  | nil => cases h
  | cons first rest ih =>
    cases first with
    | nil =>
      obtain ⟨b, last, before, hpath, hin, hstep⟩ := ih h
      exact ⟨b, last, before, hpath, List.mem_cons_of_mem _ hin, hstep⟩
    | cons last before =>
      rw [nextLevel_cons] at h
      rcases List.mem_append.1 h with h | h
      · obtain ⟨b, hb, rfl⟩ := List.mem_map.1 h
        obtain ⟨hstep, hmet, hpool⟩ := mem_freshSteps.1 hb
        exact ⟨b, last, before, rfl, List.mem_cons_self, hstep, hpool, hmet⟩
      · obtain ⟨b, last', before', hpath, hin, hstep, hpool, hmet⟩ := ih h
        exact ⟨b, last', before', hpath, List.mem_cons_of_mem _ hin, hstep, hpool,
          fun hb => hmet (List.mem_append_left _ hb)⟩

/-- What is met is what was met before and the ends of the new paths. -/
theorem mem_nextLevel_met : a ∈ (nextLevel pool next paths met).2 ↔
    a ∈ met ∨ ∃ path ∈ (nextLevel pool next paths met).1, path.head? = some a := by
  induction paths generalizing met with
  | nil => simp [nextLevel]
  | cons first rest ih =>
    cases first with
    | nil => exact ih
    | cons last before =>
      simp only [nextLevel_cons]
      rw [ih, List.mem_append, or_assoc]
      refine or_congr_right ?_
      simp only [List.mem_append, List.mem_map]
      constructor
      · rintro (ha | ⟨path, hpath, hhead⟩)
        · exact ⟨a :: last :: before, .inl ⟨a, ha, rfl⟩, rfl⟩
        · exact ⟨path, .inr hpath, hhead⟩
      · rintro ⟨path, ⟨b, hb, rfl⟩ | hpath, hhead⟩
        · obtain rfl : b = a := Option.some.inj hhead
          exact .inl hb
        · exact .inr ⟨path, hpath, hhead⟩

/-- All that the ends of the old paths step to is met. -/
theorem mem_nextLevel_of_step (hpath : path ∈ paths) (hhead : path.head? = some a)
    (hstep : b ∈ next a) (hpool : b ∈ pool) : b ∈ (nextLevel pool next paths met).2 := by
  induction paths generalizing met with
  | nil => cases hpath
  | cons first rest ih =>
    cases first with
    | nil =>
      rcases List.mem_cons.1 hpath with rfl | hpath
      · cases hhead
      · exact ih hpath
    | cons last before =>
      rw [nextLevel_cons]
      rcases List.mem_cons.1 hpath with rfl | hpath
      · obtain rfl : last = a := Option.some.inj hhead
        refine mem_nextLevel_met.2 (.inl (List.mem_append.2 ?_))
        by_cases hmet : b ∈ met
        · exact .inl hmet
        · exact .inr (mem_freshSteps.2 ⟨hstep, hmet, hpool⟩)
      · exact ih hpath

/-! ## §3. The levels of the search. -/

/-- A path of the search, last element first: steps lead along it from the start through the pool,
and to no element twice. -/
structure Outward (pool : List α) (next : α → List α) (start : α) (path : List α) : Prop where
  chain : path.IsChain fun b a => b ∈ next a
  starts : path.getLast? = some start
  nodup : path.Nodup
  inside : ∀ a ∈ path, a ∈ pool

/-- What holds when the search comes to a level. -/
structure Level (pool : List α) (next : α → List α) (start : α) (depth : Nat)
    (paths : List (List α)) (met : List α) : Prop where
  outward : ∀ path ∈ paths, Outward pool next start path
  length : ∀ path ∈ paths, path.length = depth + 1
  path_met : ∀ path ∈ paths, ∀ a ∈ path, a ∈ met
  start_met : start ∈ met
  /-- What was met is the end of a path, or was looked at: its steps were met, and none of them
  leads back to the start. -/
  looked : ∀ a ∈ met, (∃ path ∈ paths, path.head? = some a) ∨
    start ∉ next a ∧ ∀ b ∈ next a, b ∈ pool → b ∈ met

omit [DecidableEq α] in
theorem Level.first (hstart : start ∈ pool) : Level pool next start 0 [[start]] [start] where
  outward := by
    intro path hpath
    obtain rfl := List.mem_singleton.1 hpath
    refine ⟨List.isChain_singleton _, rfl, List.nodup_singleton _, fun a ha => ?_⟩
    exact List.mem_singleton.1 ha ▸ hstart
  length := fun _ hpath => List.mem_singleton.1 hpath ▸ rfl
  path_met := fun _ hpath _ ha => List.mem_singleton.1 hpath ▸ ha
  start_met := List.mem_singleton_self start
  looked := fun _ ha => .inl ⟨[start], List.mem_singleton_self _, List.mem_singleton.1 ha ▸ rfl⟩

/-- When no path of the level closes, the search goes on with the next level. -/
theorem Level.deeper (h : Level pool next start depth paths met)
    (hopen : ∀ path ∈ paths, ∀ a, path.head? = some a → start ∉ next a) :
    Level pool next start (depth + 1) (nextLevel pool next paths met).1
      (nextLevel pool next paths met).2 where
  outward := by
    intro path hpath
    obtain ⟨b, last, before, rfl, hin, hstep, hpool, hmet⟩ := exists_of_mem_nextLevel hpath
    have hold := h.outward _ hin
    refine ⟨List.isChain_cons_cons.2 ⟨hstep, hold.chain⟩, ?_, ?_, ?_⟩
    · rw [List.getLast?_cons_cons]
      exact hold.starts
    · exact List.nodup_cons.2 ⟨fun hb => hmet (h.path_met _ hin b hb), hold.nodup⟩
    · intro a ha
      rcases List.mem_cons.1 ha with rfl | ha
      · exact hpool
      · exact hold.inside a ha
  length := by
    intro path hpath
    obtain ⟨b, last, before, rfl, hin, -⟩ := exists_of_mem_nextLevel hpath
    rw [List.length_cons, h.length _ hin]
  path_met := by
    intro path hpath a ha
    obtain ⟨b, last, before, rfl, hin, -⟩ := exists_of_mem_nextLevel hpath
    rcases List.mem_cons.1 ha with rfl | ha
    · exact mem_nextLevel_met.2 (.inr ⟨_, hpath, rfl⟩)
    · exact mem_nextLevel_met.2 (.inl (h.path_met _ hin a ha))
  start_met := mem_nextLevel_met.2 (.inl h.start_met)
  looked := by
    intro a ha
    rcases mem_nextLevel_met.1 ha with ha | hnew
    · right
      rcases h.looked a ha with ⟨path, hpath, hhead⟩ | ⟨hback, hsteps⟩
      · exact ⟨hopen path hpath a hhead,
          fun b hb hpool => mem_nextLevel_of_step hpath hhead hb hpool⟩
      · exact ⟨hback, fun b hb hpool => mem_nextLevel_met.2 (.inl (hsteps b hb hpool))⟩
    · exact .inl hnew

omit [DecidableEq α] in
/-- No path of the search is longer than the pool. -/
theorem Outward.length_le (h : Outward pool next start path) : path.length ≤ pool.length :=
  (List.subperm_of_subset h.nodup h.inside).length_le

omit [DecidableEq α] in
/-- So the search comes to a level without paths. -/
theorem Level.paths_eq_nil (h : Level pool next start depth paths met)
    (hdeep : pool.length ≤ depth) : paths = [] := by
  refine List.eq_nil_iff_forall_not_mem.2 fun path hpath => ?_
  have hlong := h.length path hpath
  have hshort := (h.outward path hpath).length_le
  omega

omit [DecidableEq α] in
/-- A path whose end steps back to the start is a circuit, read from the start. -/
theorem Outward.circuit (h : Outward pool next start path) (hhead : path.head? = some a)
    (hback : start ∈ next a) : path.reverse.head? = some start ∧
      Circuit (fun a b => b ∈ next a) path.reverse := by
  have hne : path.reverse ≠ [] := by
    intro hnil
    rw [List.reverse_eq_nil_iff.1 hnil] at hhead
    cases hhead
  refine ⟨by rw [List.head?_reverse, h.starts], hne, List.isChain_reverse.2 h.chain, ?_⟩
  have hlast : path.reverse.getLast hne = a := by
    have := List.getLast?_reverse (l := path)
    rw [hhead, List.getLast?_eq_getLast_of_ne_nil hne] at this
    exact Option.some.inj this
  have hfirst : path.reverse.head hne = start := by
    have := List.head?_reverse (l := path)
    rw [h.starts, List.head?_eq_some_head hne] at this
    exact Option.some.inj this
  rw [hlast, hfirst]
  exact hback

/-- The search tells a path of the level that closes from a level without one. -/
theorem closes_iff : (path.head?.any fun last => (next last).contains start) = true ↔
    ∃ a, path.head? = some a ∧ start ∈ next a := by
  cases path.head? <;> simp

/-- What the search finds is a circuit through the start, without repetition. -/
theorem circuit_of_closingPath? (h : Level pool next start depth paths met)
    (hfound : closingPath? pool next start levels paths met = some cycle) :
    (cycle.head? = some start ∧ Circuit (fun a b => b ∈ next a) cycle) ∧ cycle.Nodup ∧
      ∀ a ∈ cycle, a ∈ pool := by
  induction levels generalizing depth paths met with
  | zero => cases hfound
  | succ levels ih =>
    unfold closingPath? at hfound
    split at hfound
    · rename_i path hpath
      obtain rfl := Option.some.inj hfound
      have hcloses := List.find?_some hpath
      obtain ⟨a, hhead, hback⟩ := closes_iff.1 hcloses
      have hold := h.outward path (List.mem_of_find?_eq_some hpath)
      exact ⟨hold.circuit hhead hback, List.nodup_reverse.2 hold.nodup,
        fun a ha => hold.inside a (List.mem_reverse.1 ha)⟩
    · rename_i hnone
      refine ih (h.deeper fun path hpath a hhead hback => ?_) hfound
      exact List.find?_eq_none.1 hnone path hpath (closes_iff.2 ⟨a, hhead, hback⟩)

/-- What an element that was met steps to is met by the next level. -/
theorem Level.met_next (h : Level pool next start depth paths met) (ha : a ∈ met)
    (hstep : b ∈ next a) (hpool : b ∈ pool) : b ∈ (nextLevel pool next paths met).2 := by
  rcases h.looked a ha with ⟨path, hpath, hhead⟩ | ⟨-, hsteps⟩
  · exact mem_nextLevel_of_step hpath hhead hstep hpool
  · exact mem_nextLevel_met.2 (.inl (hsteps b hstep hpool))

omit [DecidableEq α] in
/-- When the last element of a circuit through the start is met, it is the end of a path. -/
theorem Level.last_is_end (h : Level pool next start depth paths met)
    (hcircuit : Circuit (fun a b => b ∈ next a) (start :: path))
    (hlast : (start :: path).getLast hcircuit.ne_nil ∈ met) :
    ∃ p ∈ paths, ∃ a, p.head? = some a ∧ start ∈ next a := by
  have hback : start ∈ next ((start :: path).getLast hcircuit.ne_nil) := hcircuit.closes
  rcases h.looked _ hlast with ⟨p, hp, hhead⟩ | ⟨hnot, -⟩
  · exact ⟨p, hp, _, hhead, hback⟩
  · exact absurd hback hnot

/-- When no path is left, no circuit goes through the start: all of it would be met. -/
theorem Level.no_circuit (h : Level pool next start depth [] met)
    (hpool : ∀ a ∈ start :: path, a ∈ pool) :
    ¬ Circuit (fun a b => b ∈ next a) (start :: path) := by
  intro hcircuit
  have hall : ∀ i (hi : i < (start :: path).length), (start :: path)[i] ∈ met := by
    intro i
    induction i with
    | zero => exact fun _ => h.start_met
    | succ i ih =>
      intro hi
      have hstep := List.isChain_iff_getElem.1 hcircuit.chain i hi
      exact h.met_next (ih (by omega)) hstep (hpool _ (List.getElem_mem hi))
  have hlast : (start :: path).getLast hcircuit.ne_nil ∈ met := by
    rw [List.getLast_eq_getElem]
    exact hall _ _
  obtain ⟨p, hp, -⟩ := h.last_is_end hcircuit hlast
  cases hp

/-- The search finds a circuit that is not longer than any circuit through the start. -/
theorem closingPath?_le (h : Level pool next start depth paths met)
    (hlevels : depth + levels = pool.length)
    (hcircuit : Circuit (fun a b => b ∈ next a) (start :: path))
    (hpool : ∀ a ∈ start :: path, a ∈ pool) (hdepth : depth ≤ path.length)
    (hmet : ∀ i (hi : i < (start :: path).length), i ≤ depth → (start :: path)[i] ∈ met) :
    ∃ found, closingPath? pool next start levels paths met = some found ∧
      found.length ≤ (start :: path).length := by
  induction levels generalizing depth paths met with
  | zero =>
    rw [h.paths_eq_nil (hlevels ▸ Nat.le_refl _)] at h
    exact absurd hcircuit (h.no_circuit hpool)
  | succ levels ih =>
    unfold closingPath?
    split
    · rename_i found hfound
      refine ⟨_, rfl, ?_⟩
      have hlength := h.length found (List.mem_of_find?_eq_some hfound)
      rw [List.length_reverse, List.length_cons]
      omega
    · rename_i hnone
      have hopen : ∀ p ∈ paths, ∀ a, p.head? = some a → start ∉ next a := by
        intro p hp a hhead hback
        exact List.find?_eq_none.1 hnone p hp (closes_iff.2 ⟨a, hhead, hback⟩)
      have hlt : depth < path.length := by
        -- else the circuit is over, and its last element is the end of a path that closes
        by_contra hover
        have hlast : (start :: path).getLast hcircuit.ne_nil ∈ met := by
          rw [List.getLast_eq_getElem]
          refine hmet _ _ ?_
          rw [List.length_cons]
          omega
        obtain ⟨p, hp, a, hhead, hback⟩ := h.last_is_end hcircuit hlast
        exact hopen p hp a hhead hback
      refine ih (h.deeper hopen) (by omega) hlt fun i hi hle => ?_
      rcases Nat.lt_or_eq_of_le hle with hle | rfl
      · exact mem_nextLevel_met.2 (.inl (hmet i hi (by omega)))
      · have hstep := List.isChain_iff_getElem.1 hcircuit.chain depth hi
        exact h.met_next (hmet depth (by omega) (le_refl _)) hstep (hpool _ (List.getElem_mem hi))

/-! ## §4. Shortest circuits. -/

theorem circuit_of_cycleThrough? (hstart : start ∈ pool)
    (h : cycleThrough? pool next start = some cycle) :
    (cycle.head? = some start ∧ Circuit (fun a b => b ∈ next a) cycle) ∧ cycle.Nodup ∧
      ∀ a ∈ cycle, a ∈ pool := circuit_of_closingPath? (Level.first hstart) h

theorem cycleThrough?_le (hcircuit : Circuit (fun a b => b ∈ next a) (start :: path))
    (hpool : ∀ a ∈ start :: path, a ∈ pool) :
    ∃ found, cycleThrough? pool next start = some found ∧
      found.length ≤ (start :: path).length := by
  refine closingPath?_le (Level.first (hpool start List.mem_cons_self)) (Nat.zero_add _) hcircuit
    hpool (Nat.zero_le _) fun i hi hle => ?_
  obtain rfl := Nat.le_zero.1 hle
  exact List.mem_singleton_self start

omit [DecidableEq α] in
theorem firstShortest_isSome {lists : List (List α)} (h : lists ≠ []) :
    ∃ found, firstShortest lists = some found := by
  cases lists with
  | nil => exact absurd rfl h
  | cons first rest =>
    unfold firstShortest
    split
    · split <;> exact ⟨_, rfl⟩
    · exact ⟨_, rfl⟩

omit [DecidableEq α] in
/-- The first of the shortest lists is shorter than those before it, and not longer than those
after it. -/
theorem firstShortest_eq_some {lists : List (List α)} (h : firstShortest lists = some cycle) :
    ∃ pre post, lists = pre ++ cycle :: post ∧ (∀ l ∈ pre, cycle.length < l.length) ∧
      ∀ l ∈ post, cycle.length ≤ l.length := by
  induction lists generalizing cycle with
  | nil => cases h
  | cons first rest ih =>
    unfold firstShortest at h
    split at h
    · rename_i found hfound
      obtain ⟨pre, post, rfl, hpre, hpost⟩ := ih hfound
      split at h
      · rename_i hlt
        obtain rfl := Option.some.inj h
        refine ⟨first :: pre, post, rfl, fun l hl => ?_, hpost⟩
        rcases List.mem_cons.1 hl with rfl | hl
        · exact hlt
        · exact hpre l hl
      · rename_i hge
        obtain rfl := Option.some.inj h
        refine ⟨[], _, rfl, fun l hl => absurd hl List.not_mem_nil, fun l hl => ?_⟩
        rcases List.mem_append.1 hl with hl | hl
        · have := hpre l hl
          omega
        · rcases List.mem_cons.1 hl with rfl | hl
          · omega
          · have := hpost l hl
            omega
    · rename_i hnone
      obtain rfl := Option.some.inj h
      have hrest : rest = [] := by
        by_contra hne
        obtain ⟨found, hfound⟩ := firstShortest_isSome hne
        rw [hnone] at hfound
        cases hfound
      subst hrest
      exact ⟨[], [], rfl, fun l hl => absurd hl List.not_mem_nil,
        fun l hl => absurd hl List.not_mem_nil⟩

/-- A circuit inside a pool, without repetition, that is as short as any, and whose first element
comes no later in the pool than any element of a circuit that is as short. -/
structure ShortestCircuit (step : α → α → Prop) (pool cycle : List α) : Prop where
  circuit : Circuit step cycle
  nodup : cycle.Nodup
  inside : ∀ a ∈ cycle, a ∈ pool
  shortest : ∀ other, Circuit step other → (∀ a ∈ other, a ∈ pool) → cycle.length ≤ other.length
  first : ∃ before first after, pool = before ++ first :: after ∧ cycle.head? = some first ∧
    ∀ other, Circuit step other → (∀ a ∈ other, a ∈ pool) → other.length = cycle.length →
      ∀ a ∈ other, a ∉ before

/-- A circuit through an element is not shorter than the one that the search finds from it. -/
theorem cycleThrough?_le_of_mem (hcircuit : Circuit (fun a b => b ∈ next a) path)
    (hpool : ∀ a ∈ path, a ∈ pool) (ha : a ∈ path) :
    ∃ found, cycleThrough? pool next a = some found ∧ found.length ≤ path.length := by
  obtain ⟨rest, hfrom, hperm⟩ := hcircuit.exists_from ha
  rw [← hperm.length_eq]
  exact cycleThrough?_le hfrom fun b hb => hpool b (hperm.mem_iff.1 hb)

theorem shortestCycle?_shortest (h : shortestCycle? pool next = some cycle) :
    ShortestCircuit (fun a b => b ∈ next a) pool cycle := by
  obtain ⟨pre, post, hsplit, hpre, hpost⟩ := firstShortest_eq_some h
  obtain ⟨before, rest, rfl, rfl, hrest⟩ := List.filterMap_eq_append_iff.1 hsplit
  obtain ⟨skipped, first, after, rfl, hskipped, hfirst, rfl⟩ := List.filterMap_eq_cons_iff.1 hrest
  have hmem : first ∈ before ++ (skipped ++ first :: after) := by simp
  obtain ⟨⟨hhead, hcircuit⟩, hnodup, hinside⟩ := circuit_of_cycleThrough? hmem hfirst
  -- what the search finds from any element of the pool is at least as long
  have hall : ∀ a ∈ before ++ (skipped ++ first :: after), ∀ found,
      cycleThrough? (before ++ (skipped ++ first :: after)) next a = some found →
        cycle.length ≤ found.length ∧ (a ∈ before → cycle.length < found.length) := by
    intro a ha found hfound
    have hlt : a ∈ before → cycle.length < found.length := fun hin =>
      hpre found (List.mem_filterMap.2 ⟨a, hin, hfound⟩)
    refine ⟨?_, hlt⟩
    rcases List.mem_append.1 ha with hin | ha
    · exact (hlt hin).le
    · rcases List.mem_append.1 ha with hin | ha
      · rw [hskipped a hin] at hfound
        cases hfound
      · rcases List.mem_cons.1 ha with rfl | hin
        · rw [hfirst] at hfound
          exact (congrArg List.length (Option.some.inj hfound)).le
        · exact hpost found (List.mem_filterMap.2 ⟨a, hin, hfound⟩)
  refine ⟨hcircuit, hnodup, hinside, fun other hother hin => ?_, before ++ skipped, first, after,
    by simp, hhead, fun other hother hin hlength a ha hbefore => ?_⟩
  · have ha := List.head_mem hother.ne_nil
    obtain ⟨found, hfound, hle⟩ := cycleThrough?_le_of_mem hother hin ha
    exact (hall _ (hin _ ha) found hfound).1.trans hle
  · obtain ⟨found, hfound, hle⟩ := cycleThrough?_le_of_mem hother hin ha
    rcases List.mem_append.1 hbefore with hbefore | hbefore
    · have := (hall a (hin a ha) found hfound).2 hbefore
      omega
    · rw [hskipped a hbefore] at hfound
      cases hfound

theorem shortestCycle?_isSome (hcircuit : Circuit (fun a b => b ∈ next a) path)
    (hpool : ∀ a ∈ path, a ∈ pool) : ∃ cycle, shortestCycle? pool next = some cycle := by
  have ha := List.head_mem hcircuit.ne_nil
  obtain ⟨found, hfound, -⟩ := cycleThrough?_le_of_mem hcircuit hpool ha
  refine firstShortest_isSome fun hnil => ?_
  have hin := List.mem_filterMap.2 ⟨_, hpool _ ha, hfound⟩
  rw [hnil] at hin
  cases hin

end Search

/-! ## §5. Cycles of cells. -/

namespace Graph

open Relation

variable {g : Graph} {roots : OrderedSet CellId} {members cycle : List CellId} {id : CellId}

theorem onCycle_of_circuit (h : Circuit g.Edge cycle) (hid : id ∈ cycle) : g.OnCycle id :=
  h.transGen hid

/-- A cycle among some cells that is as short as any, without repetition, which begins with its
earliest cell; no cell on a cycle that is as short is earlier. -/
structure MinimalCycle (g : Graph) (members : Set CellId) (cycle : List CellId) : Prop where
  circuit : Circuit g.Edge cycle
  nodup : cycle.Nodup
  inside : ∀ id ∈ cycle, id ∈ members
  shortest : ∀ other, Circuit g.Edge other → (∀ id ∈ other, id ∈ members) →
    cycle.length ≤ other.length
  first_least : ∀ first, cycle.head? = some first → ∀ id ∈ cycle, g.place first ≤ g.place id
  first_earliest : ∀ first, cycle.head? = some first → ∀ other, Circuit g.Edge other →
    (∀ id ∈ other, id ∈ members) → other.length = cycle.length →
      ∀ id ∈ other, g.place first ≤ g.place id

/-- The cells of the cycles are all that matters. -/
theorem MinimalCycle.of_subset {small large : Set CellId} (h : g.MinimalCycle small cycle)
    (hsub : small ⊆ large)
    (hcycles : ∀ other, Circuit g.Edge other → (∀ id ∈ other, id ∈ large) →
      ∀ id ∈ other, id ∈ small) : g.MinimalCycle large cycle where
  circuit := h.circuit
  nodup := h.nodup
  inside := fun id hid => hsub (h.inside id hid)
  shortest := fun other hother hin => h.shortest other hother (hcycles other hother hin)
  first_least := h.first_least
  first_earliest := fun first hfirst other hother hin =>
    h.first_earliest first hfirst other hother (hcycles other hother hin)

/-- Among members the table of their children holds the edges. -/
theorem circuit_listed_iff (hg : g.WellFormed) (hin : ∀ id ∈ cycle, id ∈ members) :
    Circuit (fun a b => b ∈ listed (.tabulate members g.children) a) cycle ↔
      Circuit g.Edge cycle := by
  have hstep : ∀ a ∈ cycle, ∀ b, b ∈ listed (.tabulate members g.children) a ↔ g.Edge a b := by
    intro a ha b
    rw [listed_tabulate _ (hin a ha), mem_children hg]
  constructor
  · intro h
    exact h.imp fun a ha b _ hab => (hstep a ha b).1 hab
  · intro h
    exact h.imp fun a ha b _ hab => (hstep a ha b).2 hab

/-- The reported cycle is minimal. -/
theorem minimalCycle_shortestCycle (hg : g.WellFormed) (hranked : Ranked g.place members)
    {other : List CellId} (hother : Circuit g.Edge other) (hin : ∀ id ∈ other, id ∈ members) :
    g.MinimalCycle {id | id ∈ members} (g.shortestCycle members) := by
  obtain ⟨cycle, hcycle⟩ := shortestCycle?_isSome ((circuit_listed_iff hg hin).2 hother) hin
  have hfound : g.shortestCycle members = cycle := by
    unfold shortestCycle
    dsimp only
    rw [hcycle, Option.getD_some]
  obtain ⟨hcircuit, hnodup, hinside, hshortest, before, first, after, hpool, hhead, hearliest⟩ :=
    shortestCycle?_shortest hcycle
  have hall : ∀ other, Circuit g.Edge other → (∀ id ∈ other, id ∈ members) →
      other.length = cycle.length → ∀ id ∈ other, g.place first ≤ g.place id := by
    intro other hother hin hlength id hid
    have hnot := hearliest other ((circuit_listed_iff hg hin).2 hother) hin hlength id hid
    have hmem := hin id hid
    rw [hpool] at hmem
    rcases List.mem_append.1 hmem with hbefore | hmem
    · exact absurd hbefore hnot
    · rcases List.mem_cons.1 hmem with rfl | hafter
      · exact le_refl _
      · have hsorted := (List.pairwise_append.1 (hpool ▸ hranked)).2.1
        exact ((List.pairwise_cons.1 hsorted).1 id hafter).le
  have hcircuit := (circuit_listed_iff hg hinside).1 hcircuit
  rw [hfound]
  refine
    { circuit := hcircuit
      nodup := hnodup
      inside := hinside
      shortest := fun other hother hin => hshortest other ((circuit_listed_iff hg hin).2 hother) hin
      first_least := fun first' hfirst' id hid => ?_
      first_earliest := fun first' hfirst' => ?_ }
  · obtain rfl := Option.some.inj (hhead.symm.trans hfirst')
    exact hall cycle hcircuit hinside rfl id hid
  · obtain rfl := Option.some.inj (hhead.symm.trans hfirst')
    exact hall

/-- A cell of a run-set that lies on a cycle lies on one inside the run-set. -/
theorem exists_circuit_runSet (hg : g.WellFormed) (hid : id ∈ g.runSet roots)
    (hon : g.OnCycle id) :
    ∃ rest, Circuit g.Edge (id :: rest) ∧ ∀ a ∈ id :: rest, a ∈ g.runSet roots := by
  obtain ⟨rest, hcircuit⟩ := exists_circuit hon
  refine ⟨rest, hcircuit, fun a ha => ?_⟩
  have hpath := hcircuit.reaches List.mem_cons_self ha
  exact (mem_runSet_iff hg).2
    (descendants_closed hg ((mem_runSet_iff hg).1 hid) hpath.to_reflTransGen)

/-- When a run has no order, the cycle that is reported is minimal in its run-set. -/
theorem minimalCycle_of_topologicalOrder (hg : g.WellFormed) (hranked : Ranked g.place g.ids)
    (h : g.topologicalOrder roots = .error cycle) : g.MinimalCycle (g.runSet roots) cycle := by
  obtain ⟨⟨id, hid, hon⟩, rfl⟩ := (topologicalOrder_eq_error_iff hg).1 h
  -- the cells left out are cells of the run-set, among them all that lie on a cycle
  have hleft : ∀ other, Circuit g.Edge other → (∀ a ∈ other, a ∈ g.runSet roots) →
      ∀ a ∈ other, a ∈ (g.descendants roots).filter fun a =>
        !(g.orderOf (g.descendants roots)).contains a := by
    intro other hother hin a ha
    have hmem := (mem_runSet_iff hg).1 (hin a ha)
    have hout := not_mem_orderOf_descendants hg hmem (onCycle_of_circuit hother ha)
    exact List.mem_filter.2 ⟨hmem, by simpa using hout⟩
  obtain ⟨rest, hcircuit, hin⟩ := exists_circuit_runSet hg ((mem_runSet_iff hg).2 hid) hon
  have hminimal := minimalCycle_shortestCycle hg
    (hranked.sublist (List.filter_sublist.trans List.filter_sublist)) hcircuit
    (hleft _ hcircuit hin)
  exact hminimal.of_subset
    (fun a ha => (mem_runSet_iff hg).2 (List.mem_filter.1 ha).1) hleft

end Graph

end Notebook
