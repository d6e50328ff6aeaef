/-
  Notebook.Proofs.Graph.Affected — what a change of names affects, whatever is remembered.

  A set of cells covers a change of names when it has the readers of the names and, with each cell,
  the other cells that read what it defines.  What is affected is the least set of live cells that
  does.  An indexed graph remembers what it was asked.  Every change of a cell's names makes it
  forget, so what it remembers always holds, and nobody can tell from an answer whether it was
  remembered.

  Main results:
    * `Graph.isLeast_affectedBy` — what a search among the live cells finds is least,
    * `Exact.affectedBy_congr` — answers can be read off the live cells,
    * `changeAll_affectedBy_least` — after any changes and questions an answer is that least set,
      the same as if nothing was remembered, and the same as if nothing had been asked before.
-/
import Mathlib.Order.Bounds.Basic
import Notebook.Proofs.Graph.Index

namespace Notebook

/-! ## §1. The least set. -/

namespace Graph

variable {g : Graph} {names : OrderedSet String} {cells : Set CellId} {a b : CellId}

/-- The live cells of a set that has every reader of a changed name and, with each cell, the other
cells that read what it defines.  A cell that defines a name itself is no reader of it. -/
structure Covers (g : Graph) (names : OrderedSet String) (cells : Set CellId) : Prop where
  live : ∀ id ∈ cells, g.contains id = true
  readers : ∀ name, names.has name = true → g.isPrivate name = false → ∀ id c,
    g.cell? id = some c → c.refs.has name = true → c.defs.has name = false → id ∈ cells
  closed : ∀ a ∈ cells, ∀ b c d name, g.cell? a = some c → g.cell? b = some d → a ≠ b →
    g.isPrivate name = false → c.defs.has name = true → d.refs.has name = true → b ∈ cells

/-- A covering set is closed under edges. -/
theorem Covers.edge (h : g.Covers names cells) (ha : a ∈ cells) (hedge : g.Edge a b) :
    b ∈ cells := by
  have hne : a ≠ b := hedge.ne
  obtain ⟨c, d, hc, hd, hfeeds⟩ := hedge
  obtain ⟨-, name, hdef, href, hpub⟩ := feeds_iff.1 hfeeds
  exact h.closed a ha b c d name hc hd hne hpub hdef href

/-- What is affected is the least set that covers the change. -/
theorem isLeast_affectedBy (hg : g.WellFormed) :
    IsLeast {cells | g.Covers names cells} {id | id ∈ g.affectedBy names.toList} := by
  have hmem : ∀ id, id ∈ g.affectedBy names.toList ↔ ∃ r,
      (g.readersOf names.toList).has r = true ∧ g.contains r = true ∧
        Relation.ReflTransGen g.Edge r id := fun id => mem_descendants hg
  constructor
  · refine
      { live := fun id hid => contains_of_mem_descendants hid
        readers := fun name hname hpub id c hc href hdef => ?_
        closed := fun a ha b c d name hc hd hne hpub hdef href => ?_ }
    · -- a reader is a root of the search
      have hread : (g.readersOf names.toList).has id = true :=
        (has_readersOf hg).2 ⟨name, OrderedSet.mem_toList.2 hname, hpub, c, hc, href, hdef⟩
      exact mem_descendants_of_root hg hread (contains_of_cell? hc)
    · have hedge : g.Edge a b := by
        refine ⟨c, d, hc, hd, feeds_iff.2 ⟨?_, name, hdef, href, hpub⟩⟩
        rw [cell?_id hc, cell?_id hd]
        exact hne
      exact descendants_closed hg ha (.single hedge)
  · intro cells hcovers id hid
    obtain ⟨r, hread, -, hpath⟩ := (hmem id).1 hid
    obtain ⟨name, hname, hpub, c, hc, href, hdef⟩ := (has_readersOf hg).1 hread
    have hroot : r ∈ cells :=
      hcovers.readers name (OrderedSet.mem_toList.1 hname) hpub r c hc href hdef
    induction hpath with
    | refl => exact hroot
    | tail hpath hedge ih =>
      exact hcovers.edge (ih ((hmem _).2 ⟨r, hread, contains_of_cell? hc, hpath⟩)) hedge

end Graph

/-! ## §2. Remembered answers. -/

namespace IndexedGraph

variable {g g' : IndexedGraph} {names : OrderedSet String}

/-- Whether a change is a question, which changes no cell. -/
def Change.asks : Change → Bool
  | .affectedBy _ => true
  | _ => false

/-- The graph without anything remembered. -/
def forgetful (g : IndexedGraph) : IndexedGraph := { g with affected := [] }

theorem Exact.forgetful (h : g.Exact) : g.forgetful.Exact :=
  { h with remembered := fun _ _ hin => absurd hin List.not_mem_nil }

/-- Graphs with the same live cells give the same answers, whatever they remember. -/
theorem Exact.affectedBy_congr (h : g.Exact) (h' : g'.Exact) (hsame : g.toGraph = g'.toGraph) :
    (g.affectedBy names).1 = (g'.affectedBy names).1 := by
  refine OrderedSet.ext_has fun id => ?_
  rw [h.has_affectedBy, h'.has_affectedBy, hsame]

/-- Questions do not change the live cells. -/
theorem foldl_plainChange_filter (changes : List Change) (plain : Graph) :
    (changes.filter fun change => !change.asks).foldl plainChange plain =
      changes.foldl plainChange plain := by
  induction changes generalizing plain with
  | nil => rfl
  | cons first rest ih =>
    cases first with
    | affectedBy names =>
      show (rest.filter fun change => !change.asks).foldl plainChange plain = _
      exact ih plain
    | register spec => exact ih _
    | unregister id => exact ih _
    | setStatus id status => exact ih _

/-- After any registrations, removals, changes of status and questions, in any order, the answer to
a question is the least set of live cells that covers the change of names.  It is the answer that is
worked out when nothing is remembered, and the one that is given when nothing was asked before. -/
theorem changeAll_affectedBy_least (marker : String) (changes : List Change)
    (names : OrderedSet String) :
    let g : IndexedGraph := changeAll { privateMarker := marker } changes
    let unasked : IndexedGraph :=
      changeAll { privateMarker := marker } (changes.filter fun change => !change.asks)
    IsLeast {cells : Set CellId | g.toGraph.Covers names cells} {id | id ∈ (g.affectedBy names).1} ∧
      (g.affectedBy names).1 = (g.forgetful.affectedBy names).1 ∧
      (g.affectedBy names).1 = (unasked.affectedBy names).1 := by
  intro g unasked
  obtain ⟨hexact, hsame⟩ := (Exact.empty marker).changeAll changes
  obtain ⟨hunasked, hsame'⟩ :=
    (Exact.empty marker).changeAll (changes.filter fun change => !change.asks)
  refine ⟨?_, hexact.affectedBy_congr hexact.forgetful rfl, ?_⟩
  · have hanswer : {id | id ∈ (g.affectedBy names).1} =
        {id | id ∈ g.toGraph.affectedBy names.toList} :=
      Set.ext fun id => hexact.has_affectedBy names
    rw [hanswer]
    exact Graph.isLeast_affectedBy hexact.wellFormed
  · refine hexact.affectedBy_congr hunasked ?_
    rw [hsame, hsame', foldl_plainChange_filter]

end IndexedGraph

end Notebook
