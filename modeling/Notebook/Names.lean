/-
  Notebook.Names — the identifiers of the things a notebook is made of.

  Cells, states and watches are numbered; elements, models and cache scopes carry texts.  Each kind
  is a type of its own.  Numbers are ordered by size and texts by their characters, and each kind
  has one written form.
-/
import Notebook.Table

namespace Notebook

open Std

/-! ## §1. Numbered things. -/

/-- A cell of the notebook. -/
structure CellId where
  number : Nat
deriving DecidableEq, Repr, Inhabited

namespace CellId

instance : Ord CellId := ⟨compareOn CellId.number⟩
instance : TransOrd CellId := inferInstanceAs (TransCmp (compareOn CellId.number))
instance : LawfulEqOrd CellId where
  eq_of_compare {a b} h := by
    have : a.number = b.number := LawfulEqOrd.eq_of_compare (α := Nat) h
    cases a; cases b; simp_all

/-- The written form. -/
def text (id : CellId) : String := s!"cell_{id.number}"

end CellId

/-- A reactive state. -/
structure StateId where
  number : Nat
deriving DecidableEq, Repr, Inhabited

namespace StateId

instance : Ord StateId := ⟨compareOn StateId.number⟩
instance : TransOrd StateId := inferInstanceAs (TransCmp (compareOn StateId.number))
instance : LawfulEqOrd StateId where
  eq_of_compare {a b} h := by
    have : a.number = b.number := LawfulEqOrd.eq_of_compare (α := Nat) h
    cases a; cases b; simp_all

/-- The written form. -/
def text (id : StateId) : String := s!"state_{id.number}"

end StateId

/-- A watched path. -/
structure WatchId where
  number : Nat
deriving DecidableEq, Repr, Inhabited

namespace WatchId

instance : Ord WatchId := ⟨compareOn WatchId.number⟩
instance : TransOrd WatchId := inferInstanceAs (TransCmp (compareOn WatchId.number))
instance : LawfulEqOrd WatchId where
  eq_of_compare {a b} h := by
    have : a.number = b.number := LawfulEqOrd.eq_of_compare (α := Nat) h
    cases a; cases b; simp_all

/-- The written form. -/
def text (id : WatchId) : String := s!"watch_{id.number}"

end WatchId

/-! ## §2. Named things. -/

/-- An interactive element. -/
structure ElementId where
  text : String
deriving DecidableEq, Repr, Inhabited

namespace ElementId

instance : Ord ElementId := ⟨compareOn ElementId.text⟩
instance : TransOrd ElementId := inferInstanceAs (TransCmp (compareOn ElementId.text))
instance : LawfulEqOrd ElementId where
  eq_of_compare {a b} h := by
    have : a.text = b.text := LawfulEqOrd.eq_of_compare (α := String) h
    cases a; cases b; simp_all

/-- The element that `cell` creates as number `ordinal` of a run, counted from zero.  A run that
creates the same elements in the same order gets the same identifiers. -/
def derive (cell : CellId) (ordinal : Nat) : ElementId := ⟨s!"{cell.text}-{ordinal}"⟩

end ElementId

/-- A model that lives outside the notebook. -/
structure ModelId where
  text : String
deriving DecidableEq, Repr, Inhabited

namespace ModelId

instance : Ord ModelId := ⟨compareOn ModelId.text⟩
instance : TransOrd ModelId := inferInstanceAs (TransCmp (compareOn ModelId.text))
instance : LawfulEqOrd ModelId where
  eq_of_compare {a b} h := by
    have : a.text = b.text := LawfulEqOrd.eq_of_compare (α := String) h
    cases a; cases b; simp_all

end ModelId

/-- A part of the cache that is invalidated as a whole. -/
structure ScopeId where
  text : String
deriving DecidableEq, Repr, Inhabited

namespace ScopeId

instance : Ord ScopeId := ⟨compareOn ScopeId.text⟩
instance : TransOrd ScopeId := inferInstanceAs (TransCmp (compareOn ScopeId.text))
instance : LawfulEqOrd ScopeId where
  eq_of_compare {a b} h := by
    have : a.text = b.text := LawfulEqOrd.eq_of_compare (α := String) h
    cases a; cases b; simp_all

/-- The scope of everything that is cached on behalf of one cell. -/
def ofCell (cell : CellId) : ScopeId := ⟨cell.text⟩

end ScopeId

end Notebook
