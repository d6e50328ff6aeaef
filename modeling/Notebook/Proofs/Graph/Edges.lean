/-
  Notebook.Proofs.Graph.Edges — well-formed graphs, their edges, and what a change does to them.

  A graph is well formed when its cells have distinct identifiers and no public name has two live
  definers.  Registering, unregistering and setting a status keep it so.

  The *shape* of a graph is the graph without its statuses.  Edges, plans and private names are
  questions about the shape, so nothing that only moves statuses can change them.

  Main results:
    * `mem_children` / `mem_parents` — children and parents are the two ends of an edge,
    * `definer?_eq_some_iff` — the definer of a name is the one live cell that defines it,
    * `taken_iff` — a registration is refused just when another live cell has one of its public
      names,
    * `WellFormed.register` / `WellFormed.unregister` / `WellFormed.setStatus`,
    * `shape_setStatus` and the `_congr` lemmas — statuses do not matter to the shape.
-/
import Mathlib.Data.List.Nodup
import Mathlib.Logic.Relation
import Mathlib.Tactic.ByContra
import Notebook.Graph.Basic

namespace Notebook

/-! ## §1. Members of ordered sets. -/

namespace OrderedSet

open Std

variable {α : Type} [Ord α] [TransOrd α] [LawfulEqOrd α]

theorem mem_toList {s : OrderedSet α} {a : α} : a ∈ s.toList ↔ s.has a = true :=
  (mem_iff s a).symm

@[simp] theorem has_add {s : OrderedSet α} {a b : α} :
    (s.add a).has b = true ↔ b = a ∨ s.has b = true := mem_add s a b

@[simp] theorem has_addAll {s : OrderedSet α} {members : List α} {b : α} :
    (s.addAll members).has b = true ↔ b ∈ members ∨ s.has b = true := mem_addAll s members b

@[simp] theorem has_ofList {members : List α} {b : α} :
    (ofList members).has b = true ↔ b ∈ members := mem_ofList members b

omit [TransOrd α] [LawfulEqOrd α] in
@[simp] theorem has_empty {b : α} : has (Table.empty : OrderedSet α) b = false := rfl

omit [TransOrd α] [LawfulEqOrd α] in
theorem has_of_isEmpty {s : OrderedSet α} (h : s.isEmpty = true) (a : α) : s.has a = false := by
  have hnil : s.entries = [] := List.isEmpty_iff.1 h
  show (Entries.find? a s.entries).isSome = false
  rw [hnil]
  rfl

@[simp] theorem has_remove [DecidableEq α] {s : OrderedSet α} {a b : α} :
    (s.remove a).has b = true ↔ b ≠ a ∧ s.has b = true := by
  show ((s.erase a).get? b).isSome = true ↔ b ≠ a ∧ (s.get? b).isSome = true
  rw [Table.get?_erase]
  by_cases h : b = a <;> simp [h]

@[simp] theorem has_diff {s t : OrderedSet α} {a : α} :
    (s.diff t).has a = true ↔ s.has a = true ∧ t.has a = false := by
  show ((s.filter fun a _ => !t.has a).get? a).isSome = true ↔ (s.get? a).isSome = true ∧ _
  rw [Table.get?_filter]
  cases hs : s.get? a <;> cases t.has a <;> simp [Option.filter]

omit [LawfulEqOrd α] in
/-- A set lists each member once. -/
theorem toList_nodup (s : OrderedSet α) : s.toList.Nodup := by
  refine List.pairwise_map.2 (s.ascending.imp fun {a b} hlt heq => ?_)
  rw [heq] at hlt
  simp at hlt

/-- Sets with the same members are equal. -/
theorem ext_has {s t : OrderedSet α} (h : ∀ a, s.has a = true ↔ t.has a = true) : s = t := by
  refine Table.ext_get? fun a => ?_
  have hsome : (s.get? a).isSome = true ↔ (t.get? a).isSome = true := h a
  cases hs : s.get? a <;> cases ht : t.get? a <;> simp_all

/-- Adding members changes a set, unless it has them already. -/
theorem addAll_eq_self_iff {s : OrderedSet α} {members : List α} :
    s.addAll members = s ↔ ∀ a ∈ members, s.has a = true := by
  constructor
  · intro h a ha
    rw [← h]
    exact has_addAll.2 (.inl ha)
  · intro h
    refine ext_has fun a => ?_
    rw [has_addAll, or_iff_right_of_imp (h a)]

end OrderedSet

namespace Graph

variable {g g' : Graph} {a b id : CellId} {c d : Cell} {name : String}

/-! ## §2. Well-formed graphs. -/

/-- Cells have distinct identifiers, and a public name has at most one live definer. -/
structure WellFormed (g : Graph) : Prop where
  ids_nodup : g.ids.Nodup
  definers_unique : ∀ c ∈ g.cells, ∀ d ∈ g.cells, ∀ name, g.isPrivate name = false →
    c.defs.has name = true → d.defs.has name = true → c.id = d.id

theorem cell?_mem (h : g.cell? id = some c) : c ∈ g.cells := List.mem_of_find?_eq_some h

theorem cell?_id (h : g.cell? id = some c) : c.id = id := by
  have := List.find?_some h
  simpa using this

theorem exists_cell? (h : c ∈ g.cells) : ∃ d, g.cell? c.id = some d := by
  cases hf : g.cell? c.id with
  | some d => exact ⟨d, rfl⟩
  | none =>
    have := List.find?_eq_none.1 hf c h
    simp at this

theorem mem_ids : id ∈ g.ids ↔ g.contains id = true := by
  constructor
  · intro h
    obtain ⟨c, hc, rfl⟩ := List.mem_map.1 h
    obtain ⟨d, hd⟩ := exists_cell? hc
    simp [contains, hd]
  · intro h
    obtain ⟨c, hc⟩ := Option.isSome_iff_exists.1 h
    exact List.mem_map.2 ⟨c, cell?_mem hc, cell?_id hc⟩

theorem contains_of_cell? (h : g.cell? id = some c) : g.contains id = true := by
  simp [contains, h]

theorem status?_of_cell? (h : g.cell? id = some c) : g.status? id = some c.status := by
  simp [status?, h]

theorem contains_of_status? {s : CellStatus} (h : g.status? id = some s) :
    g.contains id = true := by
  obtain ⟨c, hc, -⟩ := Option.map_eq_some_iff.1 h
  exact contains_of_cell? hc

theorem status?_of_not_live (h : g.contains id = false) : g.status? id = none := by
  by_contra hsome
  obtain ⟨s, hs⟩ := Option.ne_none_iff_exists'.1 hsome
  rw [contains_of_status? hs] at h
  cases h

namespace WellFormed

/-- A live cell is known by its identifier. -/
theorem eq_of_id (hg : g.WellFormed) (hc : c ∈ g.cells) (hd : d ∈ g.cells) (h : c.id = d.id) :
    c = d := List.inj_on_of_nodup_map hg.ids_nodup hc hd h

theorem cell?_eq (hg : g.WellFormed) (hc : c ∈ g.cells) : g.cell? c.id = some c := by
  obtain ⟨d, hd⟩ := exists_cell? hc
  rw [hd, hg.eq_of_id (cell?_mem hd) hc (cell?_id hd)]

end WellFormed

/-! ## §3. Edges. -/

theorem feeds_iff : g.feeds c d = true ↔
    c.id ≠ d.id ∧ ∃ name, c.defs.has name = true ∧ d.refs.has name = true ∧
      g.isPrivate name = false := by
  simp only [feeds, Bool.and_eq_true, bne_iff_ne, ne_eq, List.any_eq_true, Bool.not_eq_true',
    OrderedSet.mem_toList]

/-- An edge leads from a live cell to a live cell that reads a public name of it. -/
def Edge (g : Graph) (a b : CellId) : Prop :=
  ∃ c d, g.cell? a = some c ∧ g.cell? b = some d ∧ g.feeds c d = true

theorem edge_iff_feeds (hc : g.cell? a = some c) (hd : g.cell? b = some d) :
    g.Edge a b ↔ g.feeds c d = true := by
  unfold Edge
  simp [hc, hd]

theorem Edge.ne (h : g.Edge a b) : a ≠ b := by
  obtain ⟨c, d, hc, hd, hfeeds⟩ := h
  rw [← cell?_id hc, ← cell?_id hd]
  exact (feeds_iff.1 hfeeds).1

theorem Edge.contains_left (h : g.Edge a b) : g.contains a = true := by
  obtain ⟨c, d, hc, -, -⟩ := h
  exact contains_of_cell? hc

theorem Edge.contains_right (h : g.Edge a b) : g.contains b = true := by
  obtain ⟨c, d, -, hd, -⟩ := h
  exact contains_of_cell? hd

theorem mem_children (hg : g.WellFormed) : b ∈ g.children a ↔ g.Edge a b := by
  unfold children Edge
  cases hc : g.cell? a with
  | none => simp
  | some c =>
    simp only [List.mem_map, List.mem_filter, Option.some.injEq]
    constructor
    · rintro ⟨d, ⟨hd, hfeeds⟩, rfl⟩
      exact ⟨c, d, rfl, hg.cell?_eq hd, hfeeds⟩
    · rintro ⟨_, d, rfl, hd, hfeeds⟩
      exact ⟨d, ⟨cell?_mem hd, hfeeds⟩, cell?_id hd⟩

theorem mem_parents (hg : g.WellFormed) : a ∈ g.parents b ↔ g.Edge a b := by
  unfold parents Edge
  cases hd : g.cell? b with
  | none => simp
  | some d =>
    simp only [List.mem_map, List.mem_filter, Option.some.injEq]
    constructor
    · rintro ⟨c, ⟨hc, hfeeds⟩, rfl⟩
      exact ⟨c, d, hg.cell?_eq hc, rfl, hfeeds⟩
    · rintro ⟨c, _, hc, rfl, hfeeds⟩
      exact ⟨c, ⟨cell?_mem hc, hfeeds⟩, cell?_id hc⟩

/-- The definer of a public name is the live cell that defines it. -/
theorem definer?_eq_some_iff (hg : g.WellFormed) : g.definer? name = some id ↔
    g.isPrivate name = false ∧ ∃ c, g.cell? id = some c ∧ c.defs.has name = true := by
  unfold definer?
  cases hp : g.isPrivate name with
  | true => simp
  | false =>
    simp only [Bool.false_eq_true, if_false, true_and, Option.map_eq_some_iff]
    constructor
    · rintro ⟨c, hc, rfl⟩
      have hdef := List.find?_some hc
      exact ⟨c, hg.cell?_eq (List.mem_of_find?_eq_some hc), hdef⟩
    · rintro ⟨c, hc, hdef⟩
      cases hf : g.cells.find? fun c => c.defs.has name with
      | none => exact absurd hdef (List.find?_eq_none.1 hf c (cell?_mem hc))
      | some d =>
        refine ⟨d, rfl, ?_⟩
        have hdefd := List.find?_some hf
        rw [← cell?_id hc]
        exact hg.definers_unique d (List.mem_of_find?_eq_some hf) c (cell?_mem hc) name hp hdefd
          hdef

/-- The readers of names: they read a public one of them and do not define it. -/
theorem has_readersOf (hg : g.WellFormed) {names : List String} :
    (g.readersOf names).has id = true ↔ ∃ name ∈ names, g.isPrivate name = false ∧
      ∃ c, g.cell? id = some c ∧ c.refs.has name = true ∧ c.defs.has name = false := by
  simp only [readersOf, OrderedSet.has_ofList, List.mem_flatMap]
  refine exists_congr fun name => and_congr_right fun _ => ?_
  cases hp : g.isPrivate name with
  | true => simp
  | false =>
    simp only [Bool.false_eq_true, if_false, List.mem_map, List.mem_filter, Bool.and_eq_true,
      bne_iff_ne, ne_eq, true_and]
    constructor
    · rintro ⟨c, ⟨hc, hread, hnot⟩, rfl⟩
      refine ⟨c, hg.cell?_eq hc, hread, Bool.eq_false_iff.2 fun hdef => hnot ?_⟩
      exact (definer?_eq_some_iff hg).2 ⟨hp, c, hg.cell?_eq hc, hdef⟩
    · rintro ⟨c, hc, hread, hdef⟩
      refine ⟨c, ⟨cell?_mem hc, hread, fun hnot => ?_⟩, cell?_id hc⟩
      obtain ⟨-, d, hd, hdefd⟩ := (definer?_eq_some_iff hg).1 hnot
      rw [hg.cell?_eq (cell?_mem hc)] at hd
      simp [← Option.some.inj hd, hdef] at hdefd

/-! ## §4. The shape of a graph. -/

end Graph

/-- A cell without its status. -/
def Cell.shape (c : Cell) : Cell := { c with status := .idle }

theorem Cell.shape_eq_iff {c d : Cell} : c.shape = d.shape ↔
    c.id = d.id ∧ c.code = d.code ∧ c.defs = d.defs ∧ c.refs = d.refs ∧ c.index = d.index := by
  simp [shape]

/-- A cell as it was described. -/
def Cell.spec (c : Cell) : CellSpec := ⟨c.id, c.code, c.defs, c.refs⟩

theorem Cell.spec_eq_iff {c d : Cell} : c.spec = d.spec ↔
    c.id = d.id ∧ c.code = d.code ∧ c.defs = d.defs ∧ c.refs = d.refs :=
  CellSpec.mk.injEq .. ▸ Iff.rfl

theorem Cell.spec_of_shape {c d : Cell} (h : c.shape = d.shape) : c.spec = d.spec := by
  obtain ⟨hid, hcode, hdefs, hrefs, -⟩ := Cell.shape_eq_iff.1 h
  exact Cell.spec_eq_iff.2 ⟨hid, hcode, hdefs, hrefs⟩

namespace Graph

variable {g g' : Graph} {a b id : CellId} {c d : Cell} {name : String}

/-- A graph without its statuses. -/
def shape (g : Graph) : Graph := { g with cells := g.cells.map Cell.shape }

theorem isPrivate_shape : g.shape.isPrivate name = g.isPrivate name := rfl

theorem feeds_shape : g.shape.feeds c.shape d.shape = g.feeds c d := rfl

theorem ids_shape (g : Graph) : g.shape.ids = g.ids := by
  simp only [ids, shape, List.map_map]
  rfl

theorem cell?_shape (g : Graph) (id : CellId) : g.shape.cell? id = (g.cell? id).map Cell.shape := by
  simp only [cell?, shape, List.find?_map]
  rfl

section Congr

variable (h : g.shape = g'.shape)
include h

theorem isPrivate_congr (name : String) : g.isPrivate name = g'.isPrivate name := by
  rw [← isPrivate_shape, h, isPrivate_shape]

theorem privateMarker_congr : g.privateMarker = g'.privateMarker :=
  congrArg (fun g => g.privateMarker) h

theorem ids_congr : g.ids = g'.ids := by rw [← ids_shape, h, ids_shape]

theorem cell?_congr (hc : g.cell? id = some c) :
    ∃ d, g'.cell? id = some d ∧ d.shape = c.shape := by
  have := cell?_shape g id
  rw [h, cell?_shape, hc, Option.map_some, Option.map_eq_some_iff] at this
  exact this

theorem contains_congr (id : CellId) : g.contains id = g'.contains id := by
  rw [Bool.eq_iff_iff, ← mem_ids, ← mem_ids, ids_congr h]

theorem edge_congr : g.Edge a b ↔ g'.Edge a b := by
  suffices key : ∀ {g g' : Graph}, g.shape = g'.shape → g.Edge a b → g'.Edge a b from
    ⟨key h, key h.symm⟩
  rintro g g' h ⟨c, d, hc, hd, hfeeds⟩
  obtain ⟨c', hc', hcs⟩ := cell?_congr h hc
  obtain ⟨d', hd', hds⟩ := cell?_congr h hd
  refine ⟨c', d', hc', hd', ?_⟩
  rw [← feeds_shape, hcs, hds, ← h, feeds_shape]
  exact hfeeds

theorem WellFormed.congr (hg : g.WellFormed) : g'.WellFormed := by
  refine ⟨ids_congr h ▸ hg.ids_nodup, fun c hc d hd name hp hcdef hddef => ?_⟩
  have back : ∀ c ∈ g'.cells, ∃ d ∈ g.cells, d.shape = c.shape := by
    intro c hc
    have : c.shape ∈ g'.shape.cells := List.mem_map_of_mem hc
    rw [← h] at this
    exact List.mem_map.1 this
  obtain ⟨c₀, hc₀, hcs⟩ := back c hc
  obtain ⟨d₀, hd₀, hds⟩ := back d hd
  obtain ⟨hcid, -, hcdefs, -⟩ := Cell.shape_eq_iff.1 hcs
  obtain ⟨hdid, -, hddefs, -⟩ := Cell.shape_eq_iff.1 hds
  rw [← hcid, ← hdid]
  exact hg.definers_unique c₀ hc₀ d₀ hd₀ name (isPrivate_congr h name ▸ hp)
    (hcdefs ▸ hcdef) (hddefs ▸ hddef)

end Congr

/-! ## §5. Setting a status. -/

theorem shape_setStatus (g : Graph) (id : CellId) (s : CellStatus) :
    (g.setStatus id s).shape = g.shape := by
  simp only [shape, setStatus, List.map_map]
  congr 1
  refine List.map_congr_left fun c _ => ?_
  simp only [Function.comp]
  split <;> rfl

theorem cell?_setStatus (g : Graph) (id : CellId) (s : CellStatus) (a : CellId) :
    (g.setStatus id s).cell? a =
      (g.cell? a).map fun c => if c.id == id then { c with status := s } else c := by
  simp only [cell?, setStatus, List.find?_map]
  congr 2
  funext c
  simp only [Function.comp]
  split <;> rfl

theorem status?_setStatus (g : Graph) (id : CellId) (s : CellStatus) (a : CellId) :
    (g.setStatus id s).status? a =
      if a = id then (g.status? a).map (fun _ => s) else g.status? a := by
  unfold status?
  rw [cell?_setStatus]
  cases hc : g.cell? a with
  | none => simp
  | some c =>
    have hid := cell?_id hc
    by_cases h : a = id
    · simp [h, hid]
    · simp [h, hid]

theorem WellFormed.setStatus (hg : g.WellFormed) (id : CellId) (s : CellStatus) :
    (g.setStatus id s).WellFormed := hg.congr (shape_setStatus g id s).symm

/-- Sets the status of several live cells. -/
def withStatus (g : Graph) (now : CellStatus) (ids : List CellId) : Graph :=
  ids.foldl (fun g id => g.setStatus id now) g

theorem shape_withStatus (g : Graph) (now : CellStatus) (ids : List CellId) :
    (g.withStatus now ids).shape = g.shape := by
  induction ids generalizing g with
  | nil => rfl
  | cons first rest ih => exact (ih _).trans (shape_setStatus ..)

theorem status?_withStatus (g : Graph) (now : CellStatus) (ids : List CellId) (a : CellId) :
    (g.withStatus now ids).status? a =
      if a ∈ ids then (g.status? a).map (fun _ => now) else g.status? a := by
  induction ids generalizing g with
  | nil => rfl
  | cons first rest ih =>
    refine (ih _).trans ?_
    rw [status?_setStatus]
    by_cases hrest : a ∈ rest <;> by_cases hfirst : a = first <;>
      cases g.status? a <;> simp [hrest, hfirst]

/-- Giving all live cells a status leaves none with another one. -/
theorem status?_withStatus_ids (g : Graph) (now : CellStatus) (a : CellId) :
    (g.withStatus now g.ids).status? a = (g.status? a).map fun _ => now := by
  rw [status?_withStatus]
  split
  · rfl
  · rename_i hnot
    rw [mem_ids, Bool.not_eq_true] at hnot
    rw [status?_of_not_live hnot]
    rfl

/-! ## §6. Unregistering. -/

theorem mem_unregister : c ∈ (g.unregister id).cells ↔ c ∈ g.cells ∧ c.id ≠ id := by
  simp [unregister]

theorem WellFormed.unregister (hg : g.WellFormed) (id : CellId) : (g.unregister id).WellFormed :=
  ⟨hg.ids_nodup.sublist (List.filter_sublist.map _), fun c hc d hd name hp hcdef hddef =>
    hg.definers_unique c (mem_unregister.1 hc).1 d (mem_unregister.1 hd).1 name hp hcdef hddef⟩

theorem cell?_unregister (g : Graph) (id a : CellId) :
    (g.unregister id).cell? a = if a = id then none else g.cell? a := by
  simp only [cell?, Graph.unregister, List.find?_filter]
  by_cases h : a = id
  · subst h
    simp
  · rw [if_neg h]
    congr 1
    funext c
    by_cases hc : c.id = a <;> simp [hc, h]

/-- Removing a cell that is not live changes nothing. -/
theorem unregister_of_not_live (h : g.contains id = false) : g.unregister id = g := by
  have hall : ∀ c ∈ g.cells, (c.id != id) = true := by
    intro c hc
    refine bne_iff_ne.2 fun heq => ?_
    have hin := mem_ids.1 (List.mem_map_of_mem hc : c.id ∈ g.ids)
    rw [heq, h] at hin
    cases hin
  unfold unregister
  rw [List.filter_eq_self.2 hall]

theorem status?_unregister (g : Graph) (id a : CellId) :
    (g.unregister id).status? a = if a = id then none else g.status? a := by
  unfold status?
  rw [cell?_unregister]
  split <;> rfl

theorem edge_unregister (id : CellId) :
    (g.unregister id).Edge a b ↔ g.Edge a b ∧ a ≠ id ∧ b ≠ id := by
  unfold Edge
  simp only [cell?_unregister]
  constructor
  · rintro ⟨c, d, hc, hd, hfeeds⟩
    have ha : a ≠ id := by rintro rfl; simp at hc
    have hb : b ≠ id := by rintro rfl; simp at hd
    rw [if_neg ha] at hc
    rw [if_neg hb] at hd
    exact ⟨⟨c, d, hc, hd, hfeeds⟩, ha, hb⟩
  · rintro ⟨⟨c, d, hc, hd, hfeeds⟩, ha, hb⟩
    exact ⟨c, d, by rw [if_neg ha, hc], by rw [if_neg hb, hd], hfeeds⟩

/-! ## §7. Registering. -/

/-- The cell that a registration puts into the graph. -/
def placed (g : Graph) (spec : CellSpec) : Cell :=
  ⟨spec.id, spec.code, spec.defs, spec.refs, (g.status? spec.id).getD .idle,
    ((g.cell? spec.id).map Cell.index).getD g.nextIndex⟩

/-- The names in conflict are the public ones that another live cell defines. -/
theorem mem_conflicts (hg : g.WellFormed) {spec : CellSpec} {owner : CellId} :
    (name, owner) ∈ g.conflicts spec ↔ spec.defs.has name = true ∧ g.isPrivate name = false ∧
      owner ≠ spec.id ∧ ∃ c, g.cell? owner = some c ∧ c.defs.has name = true := by
  simp only [conflicts, List.mem_filterMap, OrderedSet.mem_toList]
  constructor
  · rintro ⟨name', hname, hfound⟩
    split at hfound
    · rename_i owner' howner
      split at hfound
      · cases hfound
      · rename_i hne
        obtain ⟨rfl, rfl⟩ := Prod.mk.inj (Option.some.inj hfound)
        obtain ⟨hp, hc⟩ := (definer?_eq_some_iff hg).1 howner
        exact ⟨hname, hp, by simpa using hne, hc⟩
    · cases hfound
  · rintro ⟨hname, hp, hne, hc⟩
    refine ⟨name, hname, ?_⟩
    rw [(definer?_eq_some_iff hg).2 ⟨hp, hc⟩]
    simp [hne]

/-- No name is in conflict twice. -/
theorem conflicts_nodup (g : Graph) (spec : CellSpec) : ((g.conflicts spec).map (·.1)).Nodup := by
  have hsub : ∀ entry? : String → Option (String × CellId),
      (∀ name pair, entry? name = some pair → pair.1 = name) →
        ∀ names : List String, ((names.filterMap entry?).map (·.1)).Sublist names := by
    intro entry? hentry names
    induction names with
    | nil => exact .slnil
    | cons first rest ih =>
      rw [List.filterMap_cons]
      split
      · exact ih.cons _
      · rename_i pair hpair
        rw [List.map_cons, hentry first pair hpair]
        exact ih.cons_cons _
  -- an entry carries the name that it was made for
  refine (OrderedSet.toList_nodup spec.defs).sublist (hsub _ (fun name pair hpair => ?_) _)
  split at hpair
  · split at hpair
    · cases hpair
    · exact (congrArg Prod.fst (Option.some.inj hpair)).symm
  · cases hpair

/-- A registration is refused just when a name is in conflict. -/
theorem register_error_iff {spec : CellSpec} {conflict : Conflict} :
    g.register spec = .error conflict ↔
      conflict = ⟨spec.id, g.conflicts spec⟩ ∧ g.conflicts spec ≠ [] := by
  unfold register
  split
  · rename_i hnone
    simp [hnone]
  · rename_i names hsome
    simp only [Except.error.injEq, eq_comm (b := conflict), ne_eq, iff_self_and]
    exact fun _ => hsome

/-- An accepted registration puts the cell in place. -/
theorem register_ok_iff {spec : CellSpec} :
    g.register spec = .ok g' ↔ g.conflicts spec = [] ∧ g' = g.put spec := by
  unfold register
  split
  · rename_i hnone
    simp only [Except.ok.injEq, eq_comm (b := g'), hnone, true_and]
  · rename_i names hsome
    simp only [reduceCtorEq, false_iff, not_and]
    exact fun hnone => absurd hnone hsome

/-- Without a conflict every live definer of a public name of the new cell is that cell itself. -/
theorem not_defined_elsewhere (hg : g.WellFormed) {spec : CellSpec} (h : g.conflicts spec = [])
    (hp : g.isPrivate name = false) (hname : spec.defs.has name = true) (hc : c ∈ g.cells)
    (hdef : c.defs.has name = true) : c.id = spec.id := by
  by_contra hne
  have hin := (mem_conflicts hg).2 ⟨hname, hp, hne, c, hg.cell?_eq hc, hdef⟩
  rw [h] at hin
  exact absurd hin List.not_mem_nil

theorem privateMarker_put (g : Graph) (spec : CellSpec) :
    (g.put spec).privateMarker = g.privateMarker := by
  unfold put
  split <;> rfl

theorem mem_put (hg : g.WellFormed) {spec : CellSpec} :
    c ∈ (g.put spec).cells ↔ c = g.placed spec ∨ c ∈ g.cells ∧ c.id ≠ spec.id := by
  unfold put
  split
  · rename_i hlive
    -- the identifier is live: the new description replaces the old one in place
    obtain ⟨old, hold⟩ := Option.isSome_iff_exists.1 hlive
    have hplaced : ({ old with code := spec.code, defs := spec.defs, refs := spec.refs } : Cell) =
        g.placed spec := by
      simp [placed, status?, hold, cell?_id hold]
    simp only [List.mem_map]
    constructor
    · rintro ⟨d, hd, rfl⟩
      by_cases hid : d.id = spec.id
      · have : d = old := hg.eq_of_id hd (cell?_mem hold) (hid.trans (cell?_id hold).symm)
        subst this
        simp [hid, ← hplaced]
      · exact .inr ⟨by simpa [hid] using hd, by simp [hid]⟩
    · rintro (rfl | ⟨hc, hne⟩)
      · exact ⟨old, cell?_mem hold, by simp [cell?_id hold, ← hplaced]⟩
      · exact ⟨c, hc, by simp [hne]⟩
  · rename_i hlive
    -- the identifier is new: the cell comes last
    have hnone : g.cell? spec.id = none := by simpa [contains] using hlive
    simp only [List.mem_append, List.mem_singleton, placed, status?, hnone, Option.map_none,
      Option.getD_none]
    constructor
    · rintro (hc | rfl)
      · refine .inr ⟨hc, fun hid => ?_⟩
        have := List.find?_eq_none.1 hnone c hc
        simp [hid] at this
      · exact .inl rfl
    · rintro (rfl | ⟨hc, -⟩)
      · exact .inr rfl
      · exact .inl hc

theorem ids_put (g : Graph) (spec : CellSpec) :
    (g.put spec).ids = if g.contains spec.id then g.ids else g.ids ++ [spec.id] := by
  unfold put
  split
  · simp only [ids, List.map_map]
    refine List.map_congr_left fun c _ => ?_
    simp only [Function.comp]
    split <;> rfl
  · simp [ids]

/-- What an accepted registration does: nothing is in conflict, and one cell is put in place. -/
theorem register_ok (hg : g.WellFormed) {spec : CellSpec} (h : g.register spec = .ok g') :
    g.conflicts spec = [] ∧ g'.privateMarker = g.privateMarker ∧
      (∀ c, c ∈ g'.cells ↔ c = g.placed spec ∨ c ∈ g.cells ∧ c.id ≠ spec.id) ∧
      g'.ids = if g.contains spec.id then g.ids else g.ids ++ [spec.id] := by
  obtain ⟨hconf, rfl⟩ := register_ok_iff.1 h
  exact ⟨hconf, privateMarker_put g spec, fun _ => mem_put hg, ids_put g spec⟩

theorem WellFormed.register (hg : g.WellFormed) {spec : CellSpec} (h : g.register spec = .ok g') :
    g'.WellFormed := by
  obtain ⟨hconf, hmark, hmem, hids⟩ := register_ok hg h
  have hprivate : ∀ name, g'.isPrivate name = g.isPrivate name := fun name => by
    simp only [isPrivate, hmark]
  constructor
  · rw [hids]
    split
    · exact hg.ids_nodup
    · rename_i hlive
      refine List.nodup_append.2 ⟨hg.ids_nodup, List.nodup_singleton _, fun x hx y hy hxy => ?_⟩
      rw [List.mem_singleton] at hy
      subst hxy hy
      exact hlive (mem_ids.1 hx)
  · intro c hc d hd name hp hcdef hddef
    rw [hprivate] at hp
    rcases (hmem c).1 hc with rfl | ⟨hc, -⟩ <;> rcases (hmem d).1 hd with rfl | ⟨hd, -⟩
    · rfl
    · exact (not_defined_elsewhere hg hconf hp hcdef hd hddef).symm
    · exact not_defined_elsewhere hg hconf hp hddef hc hcdef
    · exact hg.definers_unique c hc d hd name hp hcdef hddef

theorem cell?_register (hg : g.WellFormed) {spec : CellSpec} (h : g.register spec = .ok g')
    (a : CellId) : g'.cell? a = if a = spec.id then some (g.placed spec) else g.cell? a := by
  obtain ⟨-, -, hmem, -⟩ := register_ok hg h
  have hg' := hg.register h
  by_cases ha : a = spec.id
  · subst ha
    rw [if_pos rfl]
    exact hg'.cell?_eq ((hmem _).2 (.inl rfl))
  · rw [if_neg ha]
    cases hc : g.cell? a with
    | some c =>
      have hid := cell?_id hc
      rw [← hid]
      exact hg'.cell?_eq ((hmem c).2 (.inr ⟨cell?_mem hc, hid ▸ ha⟩))
    | none =>
      refine List.find?_eq_none.2 fun c hc' => ?_
      rcases (hmem c).1 hc' with rfl | ⟨hc', -⟩
      · simpa [placed] using Ne.symm ha
      · exact List.find?_eq_none.1 hc c hc'

theorem status?_register (hg : g.WellFormed) {spec : CellSpec} (h : g.register spec = .ok g')
    (a : CellId) :
    g'.status? a = if a = spec.id then some ((g.status? a).getD .idle) else g.status? a := by
  unfold status?
  rw [cell?_register hg h]
  by_cases ha : a = spec.id
  · subst ha
    simp [placed, status?]
  · simp [ha]

/-- Edges away from the registered cell are as they were. -/
theorem edge_register (hg : g.WellFormed) {spec : CellSpec} (h : g.register spec = .ok g')
    (ha : a ≠ spec.id) (hb : b ≠ spec.id) : g'.Edge a b ↔ g.Edge a b := by
  unfold Edge
  rw [cell?_register hg h, cell?_register hg h, if_neg ha, if_neg hb]
  simp only [feeds, isPrivate, (register_ok hg h).2.1]

/-! ## §8. Names that are taken. -/

/-- A public name of the description is defined by another live cell. -/
def Taken (g : Graph) (spec : CellSpec) : Prop :=
  ∃ name owner, spec.defs.has name = true ∧ g.isPrivate name = false ∧ owner ≠ spec.id ∧
    ∃ c, g.cell? owner = some c ∧ c.defs.has name = true

/-- Just the registrations with a name that is taken are refused. -/
theorem taken_iff (hg : g.WellFormed) {spec : CellSpec} :
    g.Taken spec ↔ ∃ conflict, g.register spec = .error conflict := by
  simp only [register_error_iff, exists_eq_left]
  constructor
  · rintro ⟨name, owner, hin⟩ hnil
    have hmem := (mem_conflicts hg).2 hin
    rw [hnil] at hmem
    exact absurd hmem List.not_mem_nil
  · intro hne
    obtain ⟨⟨name, owner⟩, hmem⟩ := List.exists_mem_of_ne_nil _ hne
    exact ⟨name, owner, (mem_conflicts hg).1 hmem⟩

theorem Taken.congr (h : g.shape = g'.shape) {spec : CellSpec} (htaken : g.Taken spec) :
    g'.Taken spec := by
  obtain ⟨name, owner, hdef, hpub, hne, c, hc, hcdef⟩ := htaken
  obtain ⟨d, hd, hshape⟩ := cell?_congr h hc
  obtain ⟨-, -, hdefs, -⟩ := Cell.shape_eq_iff.1 hshape
  exact ⟨name, owner, hdef, isPrivate_congr h name ▸ hpub, hne, d, hd, hdefs ▸ hcdef⟩

end Graph

end Notebook
