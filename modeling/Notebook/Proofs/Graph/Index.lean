/-
  Notebook.Proofs.Graph.Index — the indices of a graph are exact.

  A change of one cell strikes out its names and its edges, and enters the new ones.  In between the
  indices are exact for the graph without the cell, so both halves can be looked at on their own:
  `Tables` says that the tables of names are those of a graph, `Wired` that the edges are, and each
  is kept by striking a cell out and by entering it.

  Main results:
    * `Tables.strike` / `Tables.enter` — the tables of definers and readers,
    * `Wired.strike` / `Wired.rewire` — the edges, each of them once,
    * `Exact.register` / `Exact.unregister` / `Exact.setStatus` — every change keeps the indices
      exact,
    * `Exact.changeAll` — so they are exact after any changes, and the graph is the same as without
      indices,
    * `Exact.parents_eq` / `Exact.children_eq` / `Exact.has_affectedBy` — what is looked up is what
      a search among the live cells finds.
-/
import Notebook.Graph.Index
import Notebook.Proofs.Graph.Paths

namespace Notebook

namespace IndexedGraph

variable {g g' : IndexedGraph} {a b id : CellId} {c : Cell} {name : String} {spec : CellSpec}

/-! ## §1. The tables, entry by entry. -/

theorem mem_publicNames {names : OrderedSet String} :
    name ∈ g.publicNames names ↔ names.has name = true ∧ g.isPrivate name = false := by
  simp [publicNames, OrderedSet.mem_toList]

theorem get?_enterDefiner (t : Table String CellId) (names : List String) :
    (enterDefiner id t names).get? name = if name ∈ names then some id else t.get? name := by
  unfold enterDefiner
  induction names generalizing t with
  | nil => simp
  | cons first rest ih =>
    rw [List.foldl_cons, ih, Table.get?_insert]
    by_cases hrest : name ∈ rest <;> by_cases hfirst : name = first <;> simp [hrest, hfirst]

theorem get?_strikeDefiner (t : Table String CellId) (names : List String) :
    (strikeDefiner id t names).get? name =
      if name ∈ names ∧ t.get? name = some id then none else t.get? name := by
  unfold strikeDefiner
  induction names generalizing t with
  | nil => simp
  | cons first rest ih =>
    rw [List.foldl_cons, ih]
    by_cases howner : t.get? first = some id
    · rw [if_pos howner, Table.get?_erase]
      by_cases hfirst : name = first
      · subst hfirst
        simp [howner]
      · simp [hfirst]
    · rw [if_neg howner]
      by_cases hfirst : name = first
      · subst hfirst
        simp [howner]
      · simp [hfirst]

/-- The readers that a table gives for a name. -/
def readersIn (t : Table String (OrderedSet CellId)) (name : String) : OrderedSet CellId :=
  (t.get? name).getD .empty

theorem readersIn_enterReader (t : Table String (OrderedSet CellId)) (names : List String) :
    (readersIn (enterReader id t names) name).has a = true ↔
      name ∈ names ∧ a = id ∨ (readersIn t name).has a = true := by
  unfold enterReader
  induction names generalizing t with
  | nil => simp
  | cons first rest ih =>
    rw [List.foldl_cons, ih]
    have hinsert : (readersIn (t.insert first (((t.get? first).getD .empty).add id)) name).has a =
        true ↔ name = first ∧ a = id ∨ (readersIn t name).has a = true := by
      unfold readersIn
      rw [Table.get?_insert]
      by_cases hfirst : name = first
      · subst hfirst
        simp
      · simp [hfirst]
    rw [hinsert, List.mem_cons]
    tauto

theorem readersIn_strikeReaderOf (t : Table String (OrderedSet CellId)) (first : String) :
    (readersIn (strikeReaderOf id t first) name).has a = true ↔
      (readersIn t name).has a = true ∧ ¬ (name = first ∧ a = id) := by
  unfold strikeReaderOf
  by_cases hfirst : name = first
  · subst hfirst
    cases hcells : t.get? name with
    | none => simp [readersIn, hcells]
    | some cells =>
      dsimp only
      split
      · rename_i hempty
        -- the set of readers comes to nothing, and so does the entry
        have hnone := OrderedSet.has_of_isEmpty hempty a
        rw [← Bool.not_eq_true, OrderedSet.has_remove] at hnone
        simp only [readersIn, Table.get?_erase, if_pos, hcells, Option.getD_none,
          OrderedSet.has_empty, Option.getD_some]
        tauto
      · simp [readersIn, hcells, and_comm]
  · cases hcells : t.get? first with
    | none => simp [hfirst]
    | some cells =>
      dsimp only
      split <;> simp [readersIn, hfirst]

theorem readersIn_strikeReader (t : Table String (OrderedSet CellId)) (names : List String) :
    (readersIn (strikeReader id t names) name).has a = true ↔
      (readersIn t name).has a = true ∧ ¬ (name ∈ names ∧ a = id) := by
  unfold strikeReader
  induction names generalizing t with
  | nil => simp
  | cons first rest ih =>
    rw [List.foldl_cons, ih, readersIn_strikeReaderOf, List.mem_cons]
    tauto

/-- No name is entered without readers. -/
def NoneEmpty (t : Table String (OrderedSet CellId)) : Prop :=
  ∀ name cells, t.get? name = some cells → cells.isEmpty = false

theorem noneEmpty_enterReader {t : Table String (OrderedSet CellId)} (h : NoneEmpty t)
    (names : List String) : NoneEmpty (enterReader id t names) := by
  unfold enterReader
  induction names generalizing t with
  | nil => exact h
  | cons first rest ih =>
    refine ih fun name cells hcells => ?_
    rw [Table.get?_insert] at hcells
    split at hcells
    · obtain rfl := Option.some.inj hcells
      refine Bool.eq_false_iff.2 fun hempty => ?_
      have hnone := OrderedSet.has_of_isEmpty hempty id
      rw [← Bool.not_eq_true, OrderedSet.has_add] at hnone
      exact hnone (.inl rfl)
    · exact h name cells hcells

theorem noneEmpty_strikeReaderOf {t : Table String (OrderedSet CellId)} (h : NoneEmpty t)
    (first : String) : NoneEmpty (strikeReaderOf id t first) := by
  unfold strikeReaderOf
  cases hfirst : t.get? first with
  | none => exact h
  | some cells =>
    dsimp only
    split
    · intro name found hfound
      rw [Table.get?_erase] at hfound
      split at hfound
      · cases hfound
      · exact h name found hfound
    · rename_i hleft
      intro name found hfound
      rw [Table.get?_insert] at hfound
      split at hfound
      · obtain rfl := Option.some.inj hfound
        exact Bool.eq_false_iff.2 hleft
      · exact h name found hfound

theorem noneEmpty_strikeReader {t : Table String (OrderedSet CellId)} (h : NoneEmpty t)
    (names : List String) : NoneEmpty (strikeReader id t names) := by
  unfold strikeReader
  induction names generalizing t with
  | nil => exact h
  | cons first rest ih => exact ih (noneEmpty_strikeReaderOf h first)

/-! ## §2. The tables of a graph. -/

/-- The tables list which cells of a graph define and read each public name. -/
structure Tables (g : Graph) (definers : Table String CellId)
    (readers : Table String (OrderedSet CellId)) : Prop where
  definer_iff : ∀ name a, definers.get? name = some a ↔
    g.isPrivate name = false ∧ ∃ c, g.cell? a = some c ∧ c.defs.has name = true
  reader_iff : ∀ name a, (readersIn readers name).has a = true ↔
    g.isPrivate name = false ∧ ∃ c, g.cell? a = some c ∧ c.refs.has name = true
  noneEmpty : NoneEmpty readers

variable {plain plain' : Graph} {definers : Table String CellId}
  {readers : Table String (OrderedSet CellId)}

namespace Tables

/-- Only what the cells were described as matters, and which names are private. -/
theorem congr (h : Tables plain definers readers)
    (hprivate : ∀ name, plain'.isPrivate name = plain.isPrivate name)
    (hspec : ∀ a, (plain'.cell? a).map Cell.spec = (plain.cell? a).map Cell.spec) :
    Tables plain' definers readers := by
  have hcell : ∀ a (p : CellSpec → Prop),
      (∃ c, plain'.cell? a = some c ∧ p c.spec) ↔ ∃ c, plain.cell? a = some c ∧ p c.spec := by
    intro a p
    have hmap : ∀ o : Option Cell,
        (∃ c, o = some c ∧ p c.spec) ↔ ∃ s, o.map Cell.spec = some s ∧ p s := by
      intro o
      cases o <;> simp
    rw [hmap, hspec, ← hmap]
  refine ⟨fun name a => ?_, fun name a => ?_, h.noneEmpty⟩
  · rw [h.definer_iff, hprivate]
    exact and_congr_right fun _ => (hcell a fun s => s.defs.has name = true).symm
  · rw [h.reader_iff, hprivate]
    exact and_congr_right fun _ => (hcell a fun s => s.refs.has name = true).symm

/-- A status is no part of the tables. -/
theorem of_shape (h : Tables plain definers readers) (hshape : plain'.shape = plain.shape) :
    Tables plain' definers readers := by
  refine h.congr (Graph.isPrivate_congr hshape) fun a => ?_
  have hmap : ∀ o : Option Cell, o.map Cell.spec = (o.map Cell.shape).map Cell.spec := by
    intro o
    cases o <;> rfl
  rw [hmap, ← Graph.cell?_shape, hshape, Graph.cell?_shape, ← hmap]

/-- A cell that is not live has nothing to strike out. -/
theorem of_not_live (h : Tables plain definers readers) (hout : plain.cell? id = none) :
    Tables (plain.unregister id) definers readers := by
  refine h.congr (fun _ => rfl) fun a => ?_
  rw [Graph.cell?_unregister]
  split
  · rename_i heq
    rw [heq, hout]
  · rfl

/-- Striking out the names of a live cell leaves the tables of the graph without it. -/
theorem strike (h : Tables plain definers readers) (hc : plain.cell? c.id = some c) :
    Tables (plain.unregister c.id) (strikeDefiner c.id definers c.defs.toList)
      (strikeReader c.id readers c.refs.toList) := by
  refine ⟨fun name a => ?_, fun name a => ?_, noneEmpty_strikeReader h.noneEmpty _⟩
  · simp only [get?_strikeDefiner, Graph.cell?_unregister, OrderedSet.mem_toList]
    show _ ↔ plain.isPrivate name = false ∧ _
    by_cases ha : a = c.id
    · -- the definer that is struck out
      subst ha
      simp only [if_true, reduceCtorEq, false_and, exists_false, and_false, iff_false]
      split
      · simp
      · rename_i hnot
        intro hdefiner
        obtain ⟨-, d, hd, hdef⟩ := (h.definer_iff name c.id).1 hdefiner
        obtain rfl := Option.some.inj (hd.symm.trans hc)
        exact hnot ⟨hdef, hdefiner⟩
    · rw [if_neg ha, ← h.definer_iff]
      split
      · rename_i hstruck
        simp [hstruck.2, Ne.symm ha]
      · rfl
  · rw [readersIn_strikeReader, Graph.cell?_unregister, OrderedSet.mem_toList, h.reader_iff]
    show _ ↔ plain.isPrivate name = false ∧ _
    by_cases ha : a = c.id
    · subst ha
      simp [hc]
    · simp [ha]

/-- Entering the public names of an accepted cell. -/
theorem enter (hg : plain.WellFormed) (haccept : plain.register spec = .ok plain')
    (h : Tables (plain.unregister spec.id) definers readers) {defs refs : List String}
    (hdefs : ∀ name, name ∈ defs ↔ spec.defs.has name = true ∧ plain.isPrivate name = false)
    (hrefs : ∀ name, name ∈ refs ↔ spec.refs.has name = true ∧ plain.isPrivate name = false) :
    Tables plain' (enterDefiner spec.id definers defs) (enterReader spec.id readers refs) := by
  have hcell := Graph.cell?_register hg haccept
  have hprivate : ∀ name, plain'.isPrivate name = plain.isPrivate name := fun name => by
    unfold Graph.isPrivate
    rw [(Graph.register_ok hg haccept).2.1]
  refine ⟨fun name a => ?_, fun name a => ?_, noneEmpty_enterReader h.noneEmpty _⟩
  · rw [get?_enterDefiner, hcell, hprivate]
    by_cases hname : name ∈ defs
    · -- without a conflict the cell that is entered is the only definer
      obtain ⟨hdef, hpub⟩ := (hdefs name).1 hname
      rw [if_pos hname, Option.some.injEq]
      constructor
      · rintro rfl
        exact ⟨hpub, plain.placed spec, if_pos rfl, hdef⟩
      · rintro ⟨-, d, hd, hddef⟩
        split at hd
        · rename_i heq
          exact heq.symm
        · have hconf := (Graph.register_ok hg haccept).1
          have hsame := Graph.not_defined_elsewhere hg hconf hpub hdef (Graph.cell?_mem hd) hddef
          rw [← hsame, Graph.cell?_id hd]
    · rw [if_neg hname, h.definer_iff, Graph.cell?_unregister]
      refine and_congr_right fun hpub => ?_
      have hpub : plain.isPrivate name = false := hpub
      by_cases ha : a = spec.id
      · have hdef : spec.defs.has name = false := by
          exact Bool.eq_false_iff.2 fun hdef => hname ((hdefs name).2 ⟨hdef, hpub⟩)
        simp [ha, Graph.placed, hdef]
      · simp [ha]
  · rw [readersIn_enterReader, h.reader_iff, hcell, hprivate, Graph.cell?_unregister, hrefs]
    show _ ∨ plain.isPrivate name = false ∧ _ ↔ _
    by_cases ha : a = spec.id
    · simp [ha, Graph.placed, and_comm]
    · simp [ha]

end Tables

/-! ## §3. The edges of a graph. -/

/-- The edges are those of a graph, and each is there once. -/
structure Wired (g : Graph) (edges : List (CellId × CellId)) : Prop where
  mem_iff : ∀ a b, (a, b) ∈ edges ↔ g.Edge a b
  nodup : edges.Nodup

theorem mem_foldl_updateEdge {e : CellId × CellId} (edges new : List (CellId × CellId)) :
    e ∈ new.foldl updateEdge edges ↔ e ∈ edges ∨ e ∈ new := by
  induction new generalizing edges with
  | nil => simp
  | cons first rest ih =>
    rw [List.foldl_cons, ih, List.mem_cons]
    have hfirst : e ∈ updateEdge edges first ↔ e ∈ edges ∨ e = first := by
      unfold updateEdge
      split
      · rename_i hin
        exact ⟨.inl, fun h => h.elim id fun heq => heq ▸ hin⟩
      · simp
    rw [hfirst, or_assoc]

theorem nodup_foldl_updateEdge {edges : List (CellId × CellId)} (h : edges.Nodup)
    (new : List (CellId × CellId)) : (new.foldl updateEdge edges).Nodup := by
  induction new generalizing edges with
  | nil => exact h
  | cons first rest ih =>
    refine ih ?_
    unfold updateEdge
    split
    · exact h
    · rename_i hnot
      refine List.nodup_append.2 ⟨h, List.nodup_singleton _, fun e he d hd heq => ?_⟩
      rw [List.mem_singleton.1 hd] at heq
      exact hnot (heq ▸ he)

/-- The edges that the names of a cell call for lead to it from the definers of what it reads, and
from it to the readers of what it defines. -/
theorem mem_edgesOf {defs refs : OrderedSet String} : (a, b) ∈ g.edgesOf id defs refs ↔
    (b = id ∧ a ≠ id ∧ ∃ name, refs.has name = true ∧ g.isPrivate name = false ∧
      g.definerOf? name = some a) ∨
    (a = id ∧ b ≠ id ∧ ∃ name, defs.has name = true ∧ g.isPrivate name = false ∧
      (g.readersOfName name).has b = true) := by
  unfold edgesOf
  rw [List.mem_append]
  refine or_congr ?_ ?_
  · simp only [List.mem_filterMap, mem_publicNames]
    constructor
    · rintro ⟨name, ⟨href, hpub⟩, hfound⟩
      split at hfound
      · rename_i definer hdefiner
        split at hfound
        · cases hfound
        · rename_i hne
          obtain ⟨rfl, rfl⟩ := Prod.mk.inj (Option.some.inj hfound)
          exact ⟨rfl, by simpa using hne, name, href, hpub, hdefiner⟩
      · cases hfound
    · rintro ⟨rfl, hne, name, href, hpub, hdefiner⟩
      refine ⟨name, ⟨href, hpub⟩, ?_⟩
      rw [hdefiner]
      simp [hne]
  · simp only [List.mem_flatMap, mem_publicNames, List.mem_map, List.mem_filter,
      OrderedSet.mem_toList, bne_iff_ne, ne_eq, Prod.mk.injEq]
    constructor
    · rintro ⟨name, ⟨hdef, hpub⟩, reader, ⟨hreader, hne⟩, rfl, rfl⟩
      exact ⟨rfl, hne, name, hdef, hpub, hreader⟩
    · rintro ⟨rfl, hne, name, hdef, hpub, hreader⟩
      exact ⟨name, ⟨hdef, hpub⟩, b, ⟨hreader, hne⟩, rfl, rfl⟩

namespace Wired

variable {edges : List (CellId × CellId)}

/-- Striking out the edges that touch a cell leaves those of the graph without it. -/
theorem strike (h : Wired plain edges) (id : CellId) :
    Wired (plain.unregister id) (edges.filter fun e => e.1 != id && e.2 != id) := by
  refine ⟨fun a b => ?_, h.nodup.filter _⟩
  rw [List.mem_filter, h.mem_iff, Graph.edge_unregister]
  simp

theorem of_shape (h : Wired plain edges) (hshape : plain'.shape = plain.shape) :
    Wired plain' edges := by
  refine ⟨fun a b => ?_, h.nodup⟩
  rw [h.mem_iff, Graph.edge_congr hshape]

/-- Drawing the edges of an accepted cell. -/
theorem rewire (hg : plain.WellFormed) (haccept : plain.register spec = .ok g.toGraph)
    (htables : Tables g.toGraph g.definers g.readers) (h : Wired (plain.unregister spec.id) edges) :
    Wired g.toGraph ((g.edgesOf spec.id spec.defs spec.refs).foldl updateEdge edges) := by
  have hplaced : g.cell? spec.id = some (plain.placed spec) := by
    rw [Graph.cell?_register hg haccept, if_pos rfl]
  refine ⟨fun a b => ?_, nodup_foldl_updateEdge h.nodup _⟩
  rw [mem_foldl_updateEdge, h.mem_iff, Graph.edge_unregister, mem_edgesOf]
  -- an edge touches the cell at its end, at its beginning, or not at all
  by_cases ha : a = spec.id
  · subst ha
    simp only [ne_eq, not_true_eq_false, false_and, and_false, true_and, false_or]
    constructor
    · rintro ⟨hne, name, hdef, hpub, hreader⟩
      obtain ⟨-, d, hd, href⟩ := (htables.reader_iff name b).1 hreader
      refine ⟨plain.placed spec, d, hplaced, hd, Graph.feeds_iff.2 ⟨?_, name, hdef, href, hpub⟩⟩
      rw [Graph.cell?_id hd]
      exact Ne.symm hne
    · intro hedge
      obtain ⟨c, d, hc, hd, hfeeds⟩ := hedge
      obtain ⟨-, name, hdef, href, hpub⟩ := Graph.feeds_iff.1 hfeeds
      obtain rfl := Option.some.inj (hc.symm.trans hplaced)
      refine ⟨Ne.symm (Graph.Edge.ne ⟨_, d, hc, hd, hfeeds⟩), name, hdef, hpub, ?_⟩
      exact (htables.reader_iff name b).2 ⟨hpub, d, hd, href⟩
  · by_cases hb : b = spec.id
    · subst hb
      simp only [ne_eq, not_true_eq_false, and_false, false_or, true_and, ha, false_and, or_false,
        not_false_eq_true]
      constructor
      · rintro ⟨name, href, hpub, hdefiner⟩
        obtain ⟨-, c, hc, hdef⟩ := (htables.definer_iff name a).1 hdefiner
        refine ⟨c, plain.placed spec, hc, hplaced, Graph.feeds_iff.2 ⟨?_, name, hdef, href, hpub⟩⟩
        rw [Graph.cell?_id hc]
        exact ha
      · rintro ⟨c, d, hc, hd, hfeeds⟩
        obtain ⟨-, name, hdef, href, hpub⟩ := Graph.feeds_iff.1 hfeeds
        obtain rfl := Option.some.inj (hd.symm.trans hplaced)
        exact ⟨name, href, hpub, (htables.definer_iff name a).2 ⟨hpub, c, hc, hdef⟩⟩
    · rw [← Graph.edge_register hg haccept ha hb]
      simp [ha, hb]

end Wired

/-! ## §4. Numbers of cells. -/

/-- Cells are numbered in the order of their first registration. -/
structure Numbered (g : Graph) : Prop where
  ascending : g.cells.Pairwise fun c d => c.index < d.index
  below : ∀ c ∈ g.cells, c.index < g.nextIndex

namespace Numbered

/-- Changing cells in place, without a change of their numbers. -/
theorem map (h : Numbered plain) {f : Cell → Cell} (hf : ∀ c, (f c).index = c.index) :
    Numbered { plain with cells := plain.cells.map f } := by
  refine ⟨?_, fun c hc => ?_⟩
  · refine List.pairwise_map.2 (h.ascending.imp fun hlt => ?_)
    rw [hf, hf]
    exact hlt
  · obtain ⟨d, hd, rfl⟩ := List.mem_map.1 hc
    rw [hf]
    exact h.below d hd

theorem put (h : Numbered plain) (spec : CellSpec) : Numbered (plain.put spec) := by
  unfold Graph.put
  split
  · refine h.map fun c => ?_
    split <;> rfl
  · -- a new cell has the next number, which is greater than all others
    refine ⟨List.pairwise_append.2 ⟨h.ascending, List.pairwise_singleton _ _, ?_⟩, ?_⟩
    · intro c hc d hd
      rw [List.mem_singleton.1 hd]
      exact h.below c hc
    · intro c hc
      show c.index < plain.nextIndex + 1
      rcases List.mem_append.1 hc with hc | hc
      · exact Nat.lt_succ_of_lt (h.below c hc)
      · rw [List.mem_singleton.1 hc]
        exact Nat.lt_succ_self _

theorem unregister (h : Numbered plain) (id : CellId) : Numbered (plain.unregister id) :=
  ⟨h.ascending.filter _, fun c hc => h.below c (List.mem_filter.1 hc).1⟩

theorem setStatus (h : Numbered plain) (id : CellId) (status : CellStatus) :
    Numbered (plain.setStatus id status) := by
  refine h.map fun c => ?_
  split <;> rfl

/-- Live cells have different numbers. -/
theorem injective (h : Numbered plain) {d : Cell} (hc : c ∈ plain.cells) (hd : d ∈ plain.cells)
    (heq : c.index = d.index) : c = d := by
  have hnodup : (plain.cells.map Cell.index).Nodup :=
    List.pairwise_map.2 (h.ascending.imp fun hlt => Nat.ne_of_lt hlt)
  exact List.inj_on_of_nodup_map hnodup hc hd heq

end Numbered

/-! ## §5. Exact indices. -/

/-- The graph is well formed, the indices say what its cells say, and what is remembered holds. -/
structure Exact (g : IndexedGraph) : Prop where
  wellFormed : g.toGraph.WellFormed
  numbered : Numbered g.toGraph
  tables : Tables g.toGraph g.definers g.readers
  wired : Wired g.toGraph g.edges
  nodes : ∀ id, g.nodes.has id = g.contains id
  remembered : ∀ names found, (names, found) ∈ g.affected →
    ∀ a, found.has a = true ↔ a ∈ g.toGraph.affectedBy names

namespace Exact

/-- The table of definers answers as a search among the live cells. -/
theorem definerOf?_eq (h : g.Exact) (name : String) : g.definerOf? name = g.definer? name :=
  Option.ext fun a => (h.tables.definer_iff name a).trans
    (Graph.definer?_eq_some_iff h.wellFormed).symm

theorem conflicts_eq (h : g.Exact) (spec : CellSpec) :
    g.conflicts spec = g.toGraph.conflicts spec := by
  unfold conflicts publicNames Graph.conflicts
  rw [List.filterMap_filter]
  refine List.filterMap_congr fun name _ => ?_
  cases hp : g.isPrivate name with
  | true =>
    have hnone : g.definer? name = none := by simp [Graph.definer?, hp]
    simp [hnone]
  | false =>
    rw [Bool.not_false, if_pos rfl]
    exact h.definerOf?_eq name ▸ rfl

/-- A registration meets the same answer as without indices. -/
theorem register_toGraph (h : g.Exact) (spec : CellSpec) :
    (g.register spec).map (·.toGraph) = g.toGraph.register spec := by
  unfold register Graph.register
  rw [h.conflicts_eq]
  cases g.toGraph.conflicts spec <;> rfl

theorem struckOut_edges (g : IndexedGraph) (id : CellId) : (g.struckOut id).edges = g.edges := by
  unfold struckOut
  split <;> rfl

theorem struckOut_nodes (g : IndexedGraph) (id : CellId) : (g.struckOut id).nodes = g.nodes := by
  unfold struckOut
  split <;> rfl

/-- Once the names of a cell are struck out, the tables are those of the graph without it. -/
theorem struckOut (h : g.Exact) (id : CellId) :
    Tables (g.toGraph.unregister id) (g.struckOut id).definers (g.struckOut id).readers := by
  unfold IndexedGraph.struckOut
  cases hc : g.cell? id with
  | some c =>
    obtain rfl := Graph.cell?_id hc
    exact h.tables.strike hc
  | none => exact h.tables.of_not_live hc

/-- An accepted registration keeps the indices exact. -/
theorem register (h : g.Exact) (haccept : g.register spec = .ok g') : g'.Exact := by
  have hplain : g.toGraph.register spec = .ok g'.toGraph := by
    rw [← h.register_toGraph, haccept]
    rfl
  have hg := h.wellFormed
  unfold IndexedGraph.register at haccept
  split at haccept
  · obtain rfl := Except.ok.inj haccept
    have hpublic : ∀ (names : OrderedSet String) name,
        name ∈ ({ g.struckOut spec.id with toGraph := g.toGraph.put spec } :
          IndexedGraph).publicNames names ↔
        names.has name = true ∧ g.isPrivate name = false := by
      intro names name
      rw [mem_publicNames]
      show _ ∧ isPrivateName (g.toGraph.put spec).privateMarker name = false ↔ _
      rw [Graph.privateMarker_put]
      rfl
    have htables := (h.struckOut spec.id).enter hg hplain (hpublic spec.defs) (hpublic spec.refs)
    have hedges := h.wired.strike spec.id
    rw [← struckOut_edges g spec.id] at hedges
    refine
      { wellFormed := hg.register hplain
        numbered := h.numbered.put spec
        tables := htables
        wired := Wired.rewire hg hplain htables hedges
        nodes := fun id => ?_
        remembered := fun names found hin => absurd hin List.not_mem_nil }
    show ((g.struckOut spec.id).nodes.add spec.id).has id = (g.toGraph.put spec).contains id
    have hput : g.toGraph.register spec = .ok (g.toGraph.put spec) := hplain
    rw [struckOut_nodes, Bool.eq_iff_iff, OrderedSet.has_add, h.nodes]
    unfold Graph.contains
    rw [Graph.cell?_register hg hput]
    by_cases hid : id = spec.id <;> simp [hid]
  · cases haccept

/-- So does removing a cell. -/
theorem unregister (h : g.Exact) (id : CellId) : (g.unregister id).Exact := by
  unfold IndexedGraph.unregister
  split
  · refine
      { wellFormed := h.wellFormed.unregister id
        numbered := h.numbered.unregister id
        tables := h.struckOut id
        wired := h.wired.strike id
        nodes := fun a => ?_
        remembered := fun names found hin => absurd hin List.not_mem_nil }
    show (g.nodes.remove id).has a = (g.toGraph.unregister id).contains a
    rw [Bool.eq_iff_iff, OrderedSet.has_remove, h.nodes]
    unfold Graph.contains
    rw [Graph.cell?_unregister]
    by_cases ha : a = id <;> simp [ha]
  · exact h

/-! ## §6. Neighbours, and what is affected. -/

/-- The edges that come in show the parents, as a search among the live cells does. -/
theorem parents_eq (h : g.Exact) (id : CellId) : g.parents id = g.toGraph.parents id := by
  unfold parents Graph.parents Graph.ids
  rw [List.filter_map]
  cases hc : g.cell? id with
  | none =>
    have hall : ∀ p ∈ g.cells, ¬ (((fun a => decide ((a, id) ∈ g.edges)) ∘ Cell.id) p = true) := by
      intro p _ hin
      have hedge := (h.wired.mem_iff p.id id).1 (of_decide_eq_true hin)
      have hlive := hedge.contains_right
      rw [Graph.contains, hc] at hlive
      cases hlive
    rw [List.filter_eq_nil_iff.2 hall]
    rfl
  | some c =>
    refine congrArg (List.map Cell.id) (List.filter_congr fun p hp => ?_)
    have hpc := h.wellFormed.cell?_eq hp
    rw [Bool.eq_iff_iff, Function.comp_apply, decide_eq_true_iff, h.wired.mem_iff]
    exact Graph.edge_iff_feeds hpc hc

/-- And those that go out show the children. -/
theorem children_eq (h : g.Exact) (id : CellId) : g.children id = g.toGraph.children id := by
  unfold children Graph.children Graph.ids
  rw [List.filter_map]
  cases hc : g.cell? id with
  | none =>
    have hall : ∀ r ∈ g.cells, ¬ (((fun b => decide ((id, b) ∈ g.edges)) ∘ Cell.id) r = true) := by
      intro r _ hin
      have hedge := (h.wired.mem_iff id r.id).1 (of_decide_eq_true hin)
      have hlive := hedge.contains_left
      rw [Graph.contains, hc] at hlive
      cases hlive
    rw [List.filter_eq_nil_iff.2 hall]
    rfl
  | some c =>
    refine congrArg (List.map Cell.id) (List.filter_congr fun r hr => ?_)
    have hrc := h.wellFormed.cell?_eq hr
    rw [Bool.eq_iff_iff, Function.comp_apply, decide_eq_true_iff, h.wired.mem_iff]
    exact Graph.edge_iff_feeds hc hrc

/-- The edges lead to the children. -/
theorem mem_targets (h : g.Exact) : b ∈ g.targets a ↔ g.Edge a b := by
  rw [← h.wired.mem_iff]
  simp [targets]

theorem mem_reachedFrom (h : g.Exact) (roots : OrderedSet CellId) :
    (g.reachedFrom roots).has id = true ↔ id ∈ g.descendants roots := by
  rw [Graph.mem_descendants h.wellFormed]
  unfold reachedFrom
  rw [OrderedSet.has_ofList]
  have hstart : ∀ r, r ∈ roots.toList.filter g.contains ↔
      roots.has r = true ∧ g.contains r = true := by
    intro r
    rw [List.mem_filter, OrderedSet.mem_toList]
  constructor
  · refine fun hin => closure_subset (s := fun id => ∃ r, roots.has r = true ∧
      g.contains r = true ∧ Relation.ReflTransGen g.Edge r id) (fun r hr => ?_) ?_ id hin
    · obtain ⟨hroot, hlive⟩ := (hstart r).1 hr
      exact ⟨r, hroot, hlive, .refl⟩
    · rintro a ⟨r, hroot, hlive, hpath⟩ b hb -
      exact ⟨r, hroot, hlive, hpath.tail (h.mem_targets.1 hb)⟩
  · rintro ⟨r, hroot, hlive, hpath⟩
    induction hpath with
    | refl => exact subset_closure _ _ _ ((hstart r).2 ⟨hroot, hlive⟩)
    | @tail a b _ hedge ih =>
      have hnode : b ∈ g.nodes.toList := by
        rw [OrderedSet.mem_toList, h.nodes]
        exact hedge.contains_right
      exact closure_closed ih (h.mem_targets.2 hedge) hnode

theorem readersOf_eq (h : g.Exact) (names : OrderedSet String) :
    g.readersOf names = g.toGraph.readersOf names.toList := by
  refine OrderedSet.ext_has fun id => ?_
  rw [Graph.has_readersOf h.wellFormed]
  unfold IndexedGraph.readersOf
  simp only [OrderedSet.has_ofList, List.mem_flatMap, mem_publicNames, List.mem_filter,
    OrderedSet.mem_toList, bne_iff_ne, ne_eq]
  refine exists_congr fun name => ?_
  rw [and_assoc]
  refine and_congr_right fun _ => and_congr_right fun hpub => ?_
  have hreader := h.tables.reader_iff name id
  have hdefiner := h.tables.definer_iff name id
  constructor
  · rintro ⟨hread, hnot⟩
    obtain ⟨-, c, hc, href⟩ := hreader.1 hread
    exact ⟨c, hc, href, Bool.eq_false_iff.2 fun hdef => hnot (hdefiner.2 ⟨hpub, c, hc, hdef⟩)⟩
  · rintro ⟨c, hc, href, hdef⟩
    refine ⟨hreader.2 ⟨hpub, c, hc, href⟩, fun hown => ?_⟩
    obtain ⟨-, d, hd, hddef⟩ := hdefiner.1 hown
    obtain rfl := Option.some.inj (hc.symm.trans hd)
    rw [hdef] at hddef
    cases hddef

theorem has_reachedFrom_readersOf (h : g.Exact) (names : OrderedSet String) :
    (g.reachedFrom (g.readersOf names)).has id = true ↔
      id ∈ g.toGraph.affectedBy names.toList := by
  rw [h.mem_reachedFrom, h.readersOf_eq]
  rfl

/-- What is said to be affected is what is affected, whether or not it was remembered. -/
theorem has_affectedBy (h : g.Exact) (names : OrderedSet String) :
    (g.affectedBy names).1.has id = true ↔ id ∈ g.toGraph.affectedBy names.toList := by
  unfold IndexedGraph.affectedBy
  split
  · rename_i key found hfound
    have hkey := List.find?_some hfound
    rw [beq_iff_eq] at hkey
    rw [← hkey]
    exact h.remembered key found (List.mem_of_find?_eq_some hfound) id
  · exact h.has_reachedFrom_readersOf names

/-- Asking changes what is remembered, and nothing else. -/
theorem affectedBy (h : g.Exact) (names : OrderedSet String) : (g.affectedBy names).2.Exact := by
  unfold IndexedGraph.affectedBy
  split
  · exact h
  · refine { h with remembered := fun key found hin a => ?_ }
    rcases List.mem_cons.1 hin with heq | hin
    · obtain ⟨rfl, rfl⟩ := Prod.mk.inj heq
      exact h.has_reachedFrom_readersOf names
    · exact h.remembered key found hin a

/-- A status changes neither the indices nor what is affected. -/
theorem setStatus (h : g.Exact) (id : CellId) (status : CellStatus) :
    (g.setStatus id status).Exact := by
  have hshape := Graph.shape_setStatus g.toGraph id status
  refine
    { wellFormed := h.wellFormed.setStatus id status
      numbered := h.numbered.setStatus id status
      tables := h.tables.of_shape hshape
      wired := h.wired.of_shape hshape
      nodes := fun a => (h.nodes a).trans (Graph.contains_congr hshape.symm a)
      remembered := fun names found hin a => ?_ }
  rw [h.remembered names found hin a]
  exact Graph.mem_affectedBy_congr h.wellFormed hshape.symm

end Exact

/-! ## §7. Changes, one after another. -/

/-- A change of a graph without indices. -/
def plainChange (g : Graph) : Change → Graph
  | .register spec => (g.register spec).toOption.getD g
  | .unregister id => g.unregister id
  | .setStatus id status => g.setStatus id status
  | .affectedBy _ => g

namespace Exact

/-- Every change keeps the indices exact, and does to the graph what it does without them. -/
theorem change (h : g.Exact) (change : Change) :
    (g.change change).Exact ∧ (g.change change).toGraph = plainChange g.toGraph change := by
  cases change with
  | register spec =>
    have hsame := h.register_toGraph spec
    show ((g.register spec).toOption.getD g).Exact ∧ ((g.register spec).toOption.getD g).toGraph =
      (g.toGraph.register spec).toOption.getD g.toGraph
    rw [← hsame]
    cases haccept : g.register spec with
    | ok g' => exact ⟨h.register haccept, rfl⟩
    | error conflict => exact ⟨h, rfl⟩
  | unregister id =>
    refine ⟨h.unregister id, ?_⟩
    show (g.unregister id).toGraph = g.toGraph.unregister id
    unfold IndexedGraph.unregister
    split
    · rfl
    · rename_i hout
      exact (Graph.unregister_of_not_live (Bool.eq_false_iff.2 hout)).symm
  | setStatus id status => exact ⟨h.setStatus id status, rfl⟩
  | affectedBy names =>
    refine ⟨h.affectedBy names, ?_⟩
    show (g.affectedBy names).2.toGraph = g.toGraph
    unfold IndexedGraph.affectedBy
    split <;> rfl

theorem changeAll (h : g.Exact) (changes : List Change) :
    (g.changeAll changes).Exact ∧
      (g.changeAll changes).toGraph = changes.foldl plainChange g.toGraph := by
  induction changes generalizing g with
  | nil => exact ⟨h, rfl⟩
  | cons first rest ih =>
    obtain ⟨hfirst, hsame⟩ := h.change first
    rw [List.foldl_cons, ← hsame]
    exact ih hfirst

theorem empty (marker : String) : Exact { privateMarker := marker } where
  wellFormed := ⟨List.nodup_nil, fun c hc => absurd hc List.not_mem_nil⟩
  numbered := ⟨.nil, fun c hc => absurd hc List.not_mem_nil⟩
  tables :=
    { definer_iff := fun name a => by simp [Graph.cell?]
      reader_iff := fun name a => by simp [Graph.cell?, readersIn]
      noneEmpty := fun name cells hcells => by simp at hcells }
  wired := ⟨fun a b => by simp [Graph.Edge, Graph.cell?], List.nodup_nil⟩
  nodes := fun _ => rfl
  remembered := fun names found hin => absurd hin List.not_mem_nil

/-- No change gives a live cell another number. -/
theorem index_change (h : g.Exact) {change : Change} {d : Cell} (hc : g.cell? id = some c)
    (hd : (g.change change).cell? id = some d) : d.index = c.index := by
  rw [(h.change change).2] at hd
  cases change with
  | register spec =>
    change Graph.cell? ((g.toGraph.register spec).toOption.getD g.toGraph) id = some d at hd
    cases haccept : g.toGraph.register spec with
    | error conflict =>
      rw [haccept] at hd
      exact congrArg Cell.index (Option.some.inj (hd.symm.trans hc))
    | ok plain =>
      rw [haccept] at hd
      change plain.cell? id = some d at hd
      rw [Graph.cell?_register h.wellFormed haccept] at hd
      split at hd
      · -- the cell is put in its own place
        rename_i heq
        obtain rfl := Option.some.inj hd
        subst heq
        simp [Graph.placed, hc]
      · exact congrArg Cell.index (Option.some.inj (hd.symm.trans hc))
  | unregister a =>
    change (g.toGraph.unregister a).cell? id = some d at hd
    rw [Graph.cell?_unregister] at hd
    split at hd
    · cases hd
    · exact congrArg Cell.index (Option.some.inj (hd.symm.trans hc))
  | setStatus a status =>
    obtain ⟨e, he, hshape⟩ := Graph.cell?_congr (Graph.shape_setStatus g.toGraph a status) hd
    obtain rfl := Option.some.inj (he.symm.trans hc)
    exact (Cell.shape_eq_iff.1 hshape).2.2.2.2.symm
  | affectedBy names => exact congrArg Cell.index (Option.some.inj (hd.symm.trans hc))

end Exact

/-- Every index of a graph says what the live cells say. -/
structure Faithful (g : IndexedGraph) : Prop where
  /-- The definer of a name is the live cell that has it among its public definitions. -/
  definer_iff : ∀ name id, g.definerOf? name = some id ↔
    g.isPrivate name = false ∧ ∃ c, g.cell? id = some c ∧ c.defs.has name = true
  definer_unique : ∀ c ∈ g.cells, ∀ d ∈ g.cells, ∀ name, g.isPrivate name = false →
    c.defs.has name = true → d.defs.has name = true → c = d
  /-- The readers of a name are the live cells that have it among their public references. -/
  reader_iff : ∀ name id, (g.readersOfName name).has id = true ↔
    g.isPrivate name = false ∧ ∃ c, g.cell? id = some c ∧ c.refs.has name = true
  /-- An edge leads from the definer of a public name to another live cell that reads it. -/
  edge_iff : ∀ a b, (a, b) ∈ g.edges ↔ a ≠ b ∧ ∃ name c d, g.isPrivate name = false ∧
    g.cell? a = some c ∧ g.cell? b = some d ∧ c.defs.has name = true ∧ d.refs.has name = true
  edge_once : ∀ a b, (a, b) ∈ g.edges → g.edges.count (a, b) = 1
  node_iff : ∀ id, g.nodes.has id = true ↔ g.contains id = true
  index_injective : ∀ c ∈ g.cells, ∀ d ∈ g.cells, c.index = d.index → c = d
  index_kept : ∀ change id c d, g.cell? id = some c → (g.change change).cell? id = some d →
    d.index = c.index
  /-- A registration is refused when a public name has another live definer, and only then. -/
  refused_iff : ∀ spec, (∃ conflict, g.register spec = .error conflict) ↔
    ∃ name owner, spec.defs.has name = true ∧ g.isPrivate name = false ∧ owner ≠ spec.id ∧
      ∃ c, g.cell? owner = some c ∧ c.defs.has name = true
  /-- It then lists just those names, each once and with its definer, and nothing changes. -/
  refused : ∀ spec conflict, g.register spec = .error conflict →
    conflict.cell = spec.id ∧ (conflict.names.map (·.1)).Nodup ∧
    (∀ name owner, (name, owner) ∈ conflict.names ↔ spec.defs.has name = true ∧
      g.isPrivate name = false ∧ owner ≠ spec.id ∧
      ∃ c, g.cell? owner = some c ∧ c.defs.has name = true) ∧
    g.change (.register spec) = g

theorem Exact.faithful (h : g.Exact) : g.Faithful where
  definer_iff := h.tables.definer_iff
  definer_unique := by
    intro c hc d hd name hpub hcdef hddef
    exact h.wellFormed.eq_of_id hc hd (h.wellFormed.definers_unique c hc d hd name hpub hcdef hddef)
  reader_iff := h.tables.reader_iff
  edge_iff := by
    intro a b
    rw [h.wired.mem_iff]
    constructor
    · intro hedge
      obtain ⟨c, d, hc, hd, hfeeds⟩ := hedge
      obtain ⟨-, name, hdef, href, hpub⟩ := Graph.feeds_iff.1 hfeeds
      exact ⟨Graph.Edge.ne ⟨c, d, hc, hd, hfeeds⟩, name, c, d, hpub, hc, hd, hdef, href⟩
    · rintro ⟨hne, name, c, d, hpub, hc, hd, hdef, href⟩
      refine ⟨c, d, hc, hd, Graph.feeds_iff.2 ⟨?_, name, hdef, href, hpub⟩⟩
      rw [Graph.cell?_id hc, Graph.cell?_id hd]
      exact hne
  edge_once := fun a b hin => List.count_eq_one_of_mem h.wired.nodup hin
  node_iff := fun id => Bool.eq_iff_iff.1 (h.nodes id)
  index_injective := fun c hc d hd => h.numbered.injective hc hd
  index_kept := fun change id c d hc hd => h.index_change hc hd
  refused_iff := by
    intro spec
    refine Iff.trans ?_ (Graph.taken_iff h.wellFormed).symm
    rw [← h.register_toGraph]
    cases g.register spec <;> simp [Except.map]
  refused := by
    intro spec conflict hrefused
    have hplain : g.toGraph.register spec = .error conflict := by
      rw [← h.register_toGraph, hrefused]
      rfl
    obtain ⟨rfl, -⟩ := Graph.register_error_iff.1 hplain
    refine ⟨rfl, Graph.conflicts_nodup g.toGraph spec, fun name owner => ?_, ?_⟩
    · exact Graph.mem_conflicts h.wellFormed
    · show (g.register spec).toOption.getD g = g
      rw [hrefused]
      rfl

/-- After any changes of an empty graph, whatever the marker of private names, every index says what
the live cells say; and the graph itself is what it would be without indices. -/
theorem changeAll_faithful (marker : String) (changes : List Change) :
    let g : IndexedGraph := changeAll { privateMarker := marker } changes
    g.Faithful ∧ g.toGraph = changes.foldl plainChange { privateMarker := marker } := by
  intro g
  obtain ⟨hexact, hsame⟩ := (Exact.empty marker).changeAll changes
  exact ⟨hexact.faithful, hsame⟩

end IndexedGraph

end Notebook
