/-
  Notebook.Element.Lens — where a child's value stands in the value of its parent.

  Writing through a lens never fails: a value that has no such position is given one.  An array that
  is too short is filled with nulls, an object takes an index as a key, and any other value is
  replaced by a fresh array or object.
-/
import Notebook.Json.Basic

namespace Notebook

/-- A position in the value of a composite. -/
inductive Lens where
  /-- The child's value is the parent's value. -/
  | identity
  /-- A place in an array. -/
  | index (place : Nat)
  /-- A key of an object. -/
  | key (name : String)
deriving DecidableEq, Repr, Inhabited

namespace Lens

/-- The key that stands for the position in a patch. -/
def segment? : Lens → Option String
  | .identity => none
  | .index i => some (toString i)
  | .key k => some k

/-- A value under the key of the position. -/
def wrap (lens : Lens) (patch : Json) : Json :=
  match lens.segment? with
  | some segment => .object [(segment, patch)]
  | none => patch

/-- Writes at a place of a list, filling up with nulls when it is too short. -/
def writeItem (items : List Json) (i : Nat) (child : Json) : List Json :=
  if i < items.length then items.set i child
  else items ++ List.replicate (i - items.length) .null ++ [child]

/-- Writes `child` into `parent` at the position. -/
def write (lens : Lens) (parent child : Json) : Json :=
  match lens with
  | .identity => child
  | .index i =>
    match parent with
    | .array items => .array (writeItem items i child)
    | .object fields => .object (Entries.insert (toString i) child fields)
    | _ => .array (List.replicate i .null ++ [child])
  | .key k =>
    match parent with
    | .object fields => .object (Entries.insert k child fields)
    | _ => .object [(k, child)]

end Lens

end Notebook
