/-
  Notebook.Proofs.Graph.Search — the search with a queue goes level by level.

  The search of an indexed graph has one queue, and notes where it met each cell.  The search by
  levels keeps the paths themselves.  In the middle of a level the queue holds the ends of the paths
  that are left of the level, and after them the ends of the next level as far as it is known; the
  notes lead from the end of each path back along it.  To look at the children of the first end
  takes one path from the level and adds its continuations to the next one, until an end steps back
  to the start: then the way back along the notes is the path.  Notes are only added, so that the
  ways that they describe stay.

  Main results:
    * `look_open` / `look_closes` — what a look at the children of one cell does,
    * `wayBack_eq` — the way back along the notes is the path,
    * `search_level` — the queue is worked off level by level,
    * `Exact.minimalCycle_eq` — so the cycle found is that of the graph without indices.
-/
import Notebook.Proofs.Graph.Circuits
import Notebook.Proofs.Graph.Counters

namespace Notebook

namespace IndexedGraph

variable {g : IndexedGraph} {nodes : OrderedSet CellId} {start current a b : CellId}
  {children met path pool : List CellId} {paths rest later : List (List CellId)}
  {next : CellId → List CellId} {metFrom metFrom' : Table CellId CellId} {s : Search}

/-! ## §1. Looking at the children of one cell. -/

/-- Notes were made of all cells that were met, apart from the start. -/
def Notes (start : CellId) (metFrom : Table CellId CellId) (met : List CellId) : Prop :=
  ∀ a, metFrom.contains a = true ↔ a ∈ met ∧ a ≠ start

theorem Notes.insert (h : Notes start metFrom met) (hne : b ≠ start) (from' : CellId) :
    Notes start (metFrom.insert b from') (met ++ [b]) := by
  intro a
  unfold Table.contains
  rw [Table.get?_insert, List.mem_append, List.mem_singleton]
  by_cases hab : a = b
  · subst hab
    simp [hne]
  · have hold := h a
    unfold Table.contains at hold
    simp [hab, hold]

/-- When the start is not among the children, those that were not met join the queue, and it is
noted where they were met from. -/
theorem look_open (current : CellId) (hnotes : Notes start s.metFrom met)
    (hnodup : children.Nodup) (hopen : start ∉ children) (hmet : start ∈ met)
    (hpool : ∀ a, a ∈ pool ↔ nodes.has a = true) :
    (look nodes start current children s).1 = false ∧
      (look nodes start current children s).2.queue =
        s.queue ++ children.filter (fun b => !met.contains b && pool.contains b) ∧
      Notes start (look nodes start current children s).2.metFrom
        (met ++ children.filter fun b => !met.contains b && pool.contains b) ∧
      ∀ a, (look nodes start current children s).2.metFrom.get? a =
        if a ∈ children.filter (fun b => !met.contains b && pool.contains b) then some current
        else s.metFrom.get? a := by
  fun_induction look nodes start current children s generalizing met with
  | case1 s => simpa using hnotes
  | case2 child rest s hnode ih =>
    -- the child is not a node
    have hout : child ∉ pool := fun hin => by simp [(hpool child).1 hin] at hnode
    rw [List.filter_cons_of_neg (by simp [hout])]
    exact ih hnotes hnodup.of_cons (fun hin => hopen (List.mem_cons_of_mem _ hin)) hmet
  | case3 child rest s hnode hstart =>
    rw [beq_iff_eq] at hstart
    exact absurd (hstart ▸ List.mem_cons_self) hopen
  | case4 child rest s hnode hstart hnoted ih =>
    have hin := ((hnotes child).1 hnoted).1
    rw [List.filter_cons_of_neg (by simp [hin])]
    exact ih hnotes hnodup.of_cons (fun hin => hopen (List.mem_cons_of_mem _ hin)) hmet
  | case5 child rest s hnode hstart hnoted ih =>
    obtain ⟨hchild, hrest⟩ := List.nodup_cons.1 hnodup
    have hne : child ≠ start := by simpa using hstart
    have hin : child ∈ pool := (hpool child).2 (by simpa using hnode)
    have hfresh : child ∉ met := fun hmem => hnoted ((hnotes child).2 ⟨hmem, hne⟩)
    -- the child is met now, but it is not among the others
    have hsame : (rest.filter fun b => !(met ++ [child]).contains b && pool.contains b) =
        rest.filter fun b => !met.contains b && pool.contains b := by
      refine List.filter_congr fun b hb => ?_
      have hbc : b ≠ child := fun heq => hchild (heq ▸ hb)
      simp [hbc]
    obtain ⟨hlook, hqueue, hnotes', hget⟩ := ih (hnotes.insert hne current) hrest
      (fun hin => hopen (List.mem_cons_of_mem _ hin)) (List.mem_append_left _ hmet)
    rw [hsame] at hqueue hnotes' hget
    rw [List.filter_cons_of_pos (by simp [hfresh, hin])]
    rw [List.append_assoc] at hqueue hnotes'
    refine ⟨hlook, hqueue, hnotes', fun a => ?_⟩
    rw [hget, Table.get?_insert]
    by_cases ha : a = child <;> simp [ha]

/-- When the start is among the children, the search is over.  Notes were only added. -/
theorem look_closes (current : CellId) (s : Search) (hnode : nodes.has start = true)
    (hin : start ∈ children) :
    (look nodes start current children s).1 = true ∧ ∀ a b, s.metFrom.get? a = some b →
      (look nodes start current children s).2.metFrom.get? a = some b := by
  fun_induction look nodes start current children s with
  | case1 => cases hin
  | case2 child rest s hout ih =>
    refine ih ((List.mem_cons.1 hin).resolve_left ?_)
    rintro rfl
    simp [hnode] at hout
  | case3 => exact ⟨rfl, fun _ _ h => h⟩
  | case4 child rest s _ hstart _ ih =>
    refine ih ((List.mem_cons.1 hin).resolve_left ?_)
    rintro rfl
    simp at hstart
  | case5 child rest s _ hstart hnoted ih =>
    have hrest : start ∈ rest := by
      refine (List.mem_cons.1 hin).resolve_left ?_
      rintro rfl
      simp at hstart
    obtain ⟨hlook, hget⟩ := ih hrest
    refine ⟨hlook, fun a b hab => hget a b ?_⟩
    rw [Table.get?_insert, if_neg]
    · exact hab
    · rintro rfl
      simp [Table.contains, hab] at hnoted

/-! ## §2. The way back. -/

/-- The notes lead back along the path, whose last element comes first. -/
def Traced (metFrom : Table CellId CellId) (path : List CellId) : Prop :=
  path.IsChain fun b a => metFrom.get? b = some a

theorem Traced.mono (h : Traced metFrom path)
    (hget : ∀ a b, metFrom.get? a = some b → metFrom'.get? a = some b) : Traced metFrom' path :=
  h.imp fun a b hab => hget a b hab

/-- With enough steps, the way back from the end of a path is the path. -/
theorem wayBack_eq {steps : Nat} (htraced : Traced metFrom (current :: path))
    (hstarts : (current :: path).getLast? = some start) (hnodup : (current :: path).Nodup)
    (hsteps : path.length ≤ steps) :
    wayBack metFrom start steps current = current :: path := by
  induction path generalizing current steps with
  | nil =>
    obtain rfl : current = start := by simpa using hstarts
    cases steps <;> simp [wayBack]
  | cons before path ih =>
    cases steps with
    | zero => cases hsteps
    | succ steps =>
      obtain ⟨hnote, hrest⟩ := List.isChain_cons_cons.1 htraced
      rw [List.getLast?_cons_cons] at hstarts
      have hne : current ≠ start := by
        rintro rfl
        exact (List.nodup_cons.1 hnodup).1 (List.mem_of_getLast? hstarts)
      unfold wayBack
      rw [if_neg (by simpa using hne), hnote]
      dsimp only
      rw [ih hrest hstarts hnodup.of_cons (Nat.le_of_succ_le_succ hsteps)]

/-- There is a note for every step of the way. -/
theorem Traced.length_le (h : Traced metFrom (current :: path)) (hnodup : (current :: path).Nodup) :
    path.length ≤ metFrom.size := by
  have hkeys : (current :: path).dropLast ⊆ metFrom.keys := by
    clear hnodup
    induction path generalizing current with
    | nil => exact List.nil_subset _
    | cons before path ih =>
      obtain ⟨hnote, hrest⟩ := List.isChain_cons_cons.1 h
      rw [List.dropLast_cons_cons]
      refine List.cons_subset.2 ⟨?_, ih hrest⟩
      rw [Table.mem_keys_iff, hnote, Option.isSome_some]
  have hle := (List.subperm_of_subset (hnodup.sublist (List.dropLast_sublist _)) hkeys).length_le
  unfold Table.keys at hle
  rw [List.length_dropLast, List.length_map] at hle
  exact hle

/-! ## §3. Level by level. -/

/-- The cycle that the notes describe. -/
def cycleOf (start : CellId) (found : CellId × Table CellId CellId) : List CellId :=
  (wayBack found.2 start found.2.size found.1).reverse

/-- The notes are right for the paths that the search has still to look at. -/
structure Queued (start : CellId) (metFrom : Table CellId CellId) (paths : List (List CellId))
    (met : List CellId) : Prop where
  notes : Notes start metFrom met
  start_met : start ∈ met
  traced : ∀ path ∈ paths, Traced metFrom path

section Levels

variable (h : g.Exact) (hpool : ∀ a, a ∈ pool ↔ nodes.has a = true)
  (hnext : ∀ a ∈ pool, next a = g.children a)

include h hpool hnext in
/-- When the first path does not close, its continuations join the queue. -/
theorem search_open (hqueued : Queued start metFrom ((current :: path) :: rest) met)
    (hcurrent : current ∈ pool) (hopen : start ∉ next current) :
    ∃ metFrom', Queued start metFrom'
        (rest ++ (freshSteps pool next met current).map fun b => b :: current :: path)
        (met ++ freshSteps pool next met current) ∧
      g.search nodes start metFrom (current :: rest.filterMap List.head?) =
        g.search nodes start metFrom' ((rest ++
          (freshSteps pool next met current).map fun b => b :: current :: path).filterMap
            List.head?) := by
  rw [hnext current hcurrent] at hopen
  have hold : Notes start (Search.mk metFrom (rest.filterMap List.head?)).metFrom met :=
    hqueued.notes
  obtain ⟨hlook, hqueue, hnotes, hget⟩ :=
    look_open current hold (h.children_nodup current) hopen hqueued.start_met hpool
  have hfresh : freshSteps pool next met current =
      (g.children current).filter fun b => !met.contains b && pool.contains b := by
    rw [freshSteps, hnext current hcurrent]
  rw [← hfresh] at hqueue hnotes hget
  -- notes are only added for cells that were not met
  have hkeep : ∀ a b, metFrom.get? a = some b → (look nodes start current (g.children current)
      ⟨metFrom, rest.filterMap List.head?⟩).2.metFrom.get? a = some b := by
    intro a b hab
    rw [hget, if_neg]
    · exact hab
    · intro hin
      have hcontains : metFrom.contains a = true := by simp [Table.contains, hab]
      exact (mem_freshSteps.1 hin).2.1 ((hqueued.notes a).1 hcontains).1
  refine ⟨_, ⟨hnotes, List.mem_append_left _ hqueued.start_met, fun p hp => ?_⟩, ?_⟩
  · rcases List.mem_append.1 hp with hp | hp
    · exact (hqueued.traced p (List.mem_cons_of_mem _ hp)).mono hkeep
    · obtain ⟨b, hb, rfl⟩ := List.mem_map.1 hp
      refine List.isChain_cons_cons.2 ⟨?_, (hqueued.traced _ List.mem_cons_self).mono hkeep⟩
      rw [hget, if_pos hb]
  · rw [search, hlook, if_neg Bool.false_ne_true, hqueue, List.filterMap_append, List.filterMap_map]
    congr 2
    exact (List.filterMap_some).symm

include hpool hnext in
/-- When the first path closes, the search ends with it. -/
theorem search_closes (hqueued : Queued start metFrom ((current :: path) :: rest) met)
    (houtward : Outward pool next start (current :: path)) (hcloses : start ∈ next current) :
    (g.search nodes start metFrom (current :: rest.filterMap List.head?)).map (cycleOf start) =
      some (current :: path).reverse := by
  have hstart : start ∈ pool := houtward.inside start (List.mem_of_getLast? houtward.starts)
  rw [hnext current (houtward.inside current List.mem_cons_self)] at hcloses
  obtain ⟨hlook, hkeep⟩ := look_closes current ⟨metFrom, rest.filterMap List.head?⟩
    ((hpool start).1 hstart) hcloses
  have htraced := (hqueued.traced _ List.mem_cons_self).mono hkeep
  rw [search, hlook, if_pos rfl, Option.map_some]
  unfold cycleOf
  rw [wayBack_eq htraced houtward.starts houtward.nodup (htraced.length_le houtward.nodup)]

include h hpool hnext in
/-- The queue is worked off level by level: the first path of a level that closes ends the search,
and without one the next level is in the queue. -/
theorem search_level (hqueued : Queued start metFrom (paths ++ later) met)
    (houtward : ∀ path ∈ paths, Outward pool next start path) :
    match paths.find? fun path => path.head?.any fun last => (next last).contains start with
    | some path =>
      (g.search nodes start metFrom ((paths ++ later).filterMap List.head?)).map (cycleOf start) =
        some path.reverse
    | none => ∃ metFrom',
      Queued start metFrom' (later ++ (nextLevel pool next paths met).1)
          (nextLevel pool next paths met).2 ∧
        g.search nodes start metFrom ((paths ++ later).filterMap List.head?) =
          g.search nodes start metFrom'
            ((later ++ (nextLevel pool next paths met).1).filterMap List.head?) := by
  induction paths generalizing later metFrom met with
  | nil =>
    rw [List.nil_append] at hqueued ⊢
    refine ⟨metFrom, ?_, ?_⟩
    · rwa [nextLevel, List.append_nil]
    · rw [nextLevel, List.append_nil]
  | cons first rest ih =>
    have hfirst := houtward first List.mem_cons_self
    cases first with
    | nil => cases hfirst.starts
    | cons last before =>
      have hlast : last ∈ pool := hfirst.inside last List.mem_cons_self
      by_cases hcloses : start ∈ next last
      · rw [List.find?_cons_of_pos (by simpa using hcloses)]
        exact search_closes hpool hnext hqueued hfirst hcloses
      · obtain ⟨metFrom', hqueued', hsearch⟩ := search_open h hpool hnext hqueued hlast hcloses
        rw [show rest.append later = rest ++ later from rfl, List.append_assoc] at hqueued' hsearch
        have hlevel := ih hqueued' fun path hpath => houtward path (List.mem_cons_of_mem _ hpath)
        rw [List.find?_cons_of_neg (by simpa using hcloses)]
        simp only [List.cons_append, List.filterMap_cons_some (List.head?_cons), hsearch,
          nextLevel_cons, ← List.append_assoc] at hlevel ⊢
        exact hlevel

include h hpool hnext in
/-- The search with a queue finds what the search by levels finds. -/
theorem search_eq {depth levels : Nat} (hlevel : Level pool next start depth paths met)
    (hlevels : depth + levels = pool.length) (hqueued : Queued start metFrom paths met) :
    (g.search nodes start metFrom (paths.filterMap List.head?)).map (cycleOf start) =
      closingPath? pool next start levels paths met := by
  induction levels generalizing depth paths met metFrom with
  | zero =>
    rw [hlevel.paths_eq_nil (hlevels ▸ Nat.le_refl _), List.filterMap_nil, search]
    rfl
  | succ levels ih =>
    have hnow : Queued start metFrom (paths ++ []) met := by rwa [List.append_nil]
    have hall := search_level h hpool hnext hnow hlevel.outward
    rw [List.append_nil] at hall
    unfold closingPath?
    split
    · rename_i path hpath
      rw [hpath] at hall
      exact hall
    · rename_i hnone
      rw [hnone] at hall
      obtain ⟨metFrom', hqueued', hsearch⟩ := hall
      rw [List.nil_append] at hqueued' hsearch
      rw [hsearch]
      refine ih (hlevel.deeper fun path hpath a hhead hback => ?_) (by omega) hqueued'
      exact List.find?_eq_none.1 hnone path hpath (closes_iff.2 ⟨a, hhead, hback⟩)

/-! ## §4. The shortest cycle of all. -/

include h hpool hnext in
theorem cycleFrom?_eq (hstart : start ∈ pool) :
    g.cycleFrom? nodes start = cycleThrough? pool next start := by
  have hqueued : Queued start .empty [[start]] [start] := by
    refine ⟨fun a => ?_, List.mem_singleton_self start, fun path hpath => ?_⟩
    · simp [Table.contains]
    · obtain rfl := List.mem_singleton.1 hpath
      exact List.isChain_singleton start
  exact search_eq h hpool hnext (Level.first hstart) (Nat.zero_add _) hqueued

end Levels

theorem none_shorter (c : Option (List CellId)) : shorter none c = c := by
  cases c <;> rfl

theorem shorter_none (c : Option (List CellId)) : shorter c none = c := by
  cases c <;> rfl

/-- Of three cycles the same one is the first shortest, whichever two are compared first. -/
theorem shorter_assoc (a b c : Option (List CellId)) :
    shorter (shorter a b) c = shorter a (shorter b c) := by
  cases a with
  | none => rw [none_shorter, none_shorter]
  | some xs =>
    cases b with
    | none => rw [none_shorter, shorter_none]
    | some ys =>
      cases c with
      | none => rw [shorter_none, shorter_none]
      | some zs =>
        unfold shorter
        grind

theorem firstShortest_cons (cycle : List CellId) (rest : List (List CellId)) :
    firstShortest (cycle :: rest) = shorter (some cycle) (firstShortest rest) := by
  conv_lhs => unfold firstShortest
  cases firstShortest rest <;> rfl

/-- Comparing with the best cycle so far gives the first shortest one. -/
theorem foldl_shorter (find? : CellId → Option (List CellId)) (starts : List CellId)
    (best : Option (List CellId)) :
    starts.foldl (fun best start => shorter best (find? start)) best =
      shorter best (firstShortest (starts.filterMap find?)) := by
  induction starts generalizing best with
  | nil => exact (shorter_none best).symm
  | cons start rest ih =>
    rw [List.foldl_cons, ih, shorter_assoc]
    cases hfound : find? start with
    | none => rw [List.filterMap_cons_none hfound, none_shorter]
    | some cycle => rw [List.filterMap_cons_some hfound, firstShortest_cons]

/-- The cycle found among live cells is the one that the graph has without indices. -/
theorem Exact.minimalCycle_eq (h : g.Exact)
    (hlive : ∀ id, nodes.has id = true → g.contains id = true) :
    (g.minimalCycle nodes).getD [] = g.toGraph.shortestCycle (g.ids.filter nodes.has) := by
  have hpool : ∀ a, a ∈ g.ids.filter nodes.has ↔ nodes.has a = true := by
    intro a
    rw [List.mem_filter, Graph.mem_ids]
    exact and_iff_right_of_imp (hlive a)
  have hnext : ∀ a ∈ g.ids.filter nodes.has,
      Graph.listed (.tabulate (g.ids.filter nodes.has) g.toGraph.children) a = g.children a := by
    intro a ha
    rw [Graph.listed_tabulate _ ha, h.children_eq]
  unfold minimalCycle Graph.shortestCycle shortestCycle?
  rw [h.byPlace_eq hlive, foldl_shorter, none_shorter]
  congr 2
  exact List.filterMap_congr fun start hstart => cycleFrom?_eq h hpool hnext hstart

end IndexedGraph

end Notebook
