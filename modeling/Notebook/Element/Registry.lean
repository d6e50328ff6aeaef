/-
  Notebook.Element.Registry — interactive elements and the names bound to them.

  Composites own their children and hold a copy of each child's value at the child's lens, so a new
  value is written through every ancestor up to the root.  The same way up gives the patch: the
  value nested once per lens.  A child knows its parent only by identifier; when the parent is
  gone, the way up ends there.

  An element that is registered again with the same fingerprint and kind keeps its value and its
  children; otherwise it starts anew.
-/
import Notebook.Digest.Basic
import Notebook.Element.Lens
import Notebook.Error
import Notebook.Graph.Reach

namespace Notebook

/-! ## §1. Elements. -/

/-- What an element is. -/
inductive ElementKind where
  /-- A single input. -/
  | leaf (widget : String)
  /-- Children by index. -/
  | array
  /-- Children by key. -/
  | dictionary
  /-- A form whose children have keys. -/
  | batch
deriving DecidableEq, Repr, Inhabited

namespace ElementKind

/-- Whether the element holds others. -/
def isComposite : ElementKind → Bool
  | .leaf _ => false
  | _ => true

/-- The written form. -/
def toJson : ElementKind → Json
  | .leaf widget => .object [("type", .string "leaf"), ("widget", .string widget)]
  | .array => .object [("type", .string "array")]
  | .dictionary => .object [("type", .string "dictionary")]
  | .batch => .object [("type", .string "batch")]

end ElementKind

/-- What is needed to register an element. -/
structure ElementSpec where
  id : ElementId
  kind : ElementKind
  /-- The value of an element that starts anew. -/
  value : Json
  /-- Equal fingerprints mean that the element was built again unchanged. -/
  fingerprint : Digest
  /-- The cell that created the element. -/
  cell : CellId

/-- The fingerprint of an element's kind and first value. -/
def ElementSpec.fingerprintOf [HashFunction] (kind : ElementKind) (value : Json) : Digest :=
  .ofValue (.object [("kind", kind.toJson), ("value", value)])

/-- A registered element. -/
structure Element where
  id : ElementId
  kind : ElementKind
  value : Json
  fingerprint : Digest
  cell : CellId
  /-- The composite it was registered under, which need not be live any more. -/
  parent : Option ElementId
  lens : Lens
  /-- The elements it owns. -/
  children : List ElementId

/-- All registered elements, and the names bound to elements. -/
structure ElementRegistry where
  elements : Table ElementId Element := .empty
  names : Table String ElementId := .empty

namespace ElementRegistry

/-- A registered element. -/
def get? (r : ElementRegistry) (id : ElementId) : Option Element := r.elements.get? id

/-- Whether an element is registered. -/
def contains (r : ElementRegistry) (id : ElementId) : Bool := r.elements.contains id

/-- The value of an element. -/
def value? (r : ElementRegistry) (id : ElementId) : Option Json := (r.get? id).map Element.value

/-- The parent of an element while it is registered. -/
def parent? (r : ElementRegistry) (id : ElementId) : Option ElementId :=
  ((r.get? id).bind Element.parent).filter r.contains

/-- Changes one element. -/
def update (r : ElementRegistry) (id : ElementId) (f : Element → Element) : ElementRegistry :=
  { r with elements := r.elements.modify id f }

/-! ## §2. The way up. -/

/-- The element and its ancestors, as far as they are registered; at most `steps` of them. -/
def climb (r : ElementRegistry) : (steps : Nat) → ElementId → List Element
  | 0, _ => []
  | steps + 1, id =>
    match r.get? id with
    | none => []
    | some e =>
      match e.parent with
      | some parent => e :: r.climb steps parent
      | none => [e]

/-- The way from an element up to its root.  No element is its own ancestor, so the way is not
longer than the registry. -/
def lineage (r : ElementRegistry) (id : ElementId) : List Element :=
  r.climb r.elements.size id

/-- The patch of a root: the new value of the first element, nested once per lens on the way. -/
def patchAlong (patch : Json) : List Element → Json
  | [] => patch
  | [_] => patch
  | e :: parent :: rest => patchAlong (e.lens.wrap patch) (parent :: rest)

/-- The new values along the way: each ancestor's value with its child's new value written in. -/
def valuesAlong (value : Json) : List Element → List (ElementId × Json)
  | [] => []
  | [e] => [(e.id, value)]
  | e :: parent :: rest =>
    (e.id, value) :: valuesAlong (e.lens.write parent.value value) (parent :: rest)

/-- Gives an element a value and writes it through its ancestors. -/
def writeThrough (r : ElementRegistry) (id : ElementId) (value : Json) : ElementRegistry :=
  (valuesAlong value (r.lineage id)).foldl
    (fun r (id, value) => r.update id fun e => { e with value }) r

/-- The root above an element, and the patch that a new value of the element makes in it. -/
def resolve (r : ElementRegistry) (id : ElementId) (value : Json) :
    Except Error (ElementId × Json) :=
  match (r.lineage id).getLast? with
  | some root => .ok (root.id, patchAlong value (r.lineage id))
  | none => .error (.elementNotFound id.text)

/-- Gives an element a new value.  Returns the root and the patch. -/
def setValue (r : ElementRegistry) (id : ElementId) (value : Json) :
    Except Error ((ElementId × Json) × ElementRegistry) :=
  (r.resolve id value).map fun answer => (answer, r.writeThrough id value)

/-! ## §3. Registering. -/

/-- Makes `child` a child of `parent`, once, and writes its value through the ancestors. -/
def adopt (r : ElementRegistry) (parent child : ElementId) : ElementRegistry :=
  match r.get? child with
  | none => r
  | some e =>
    (r.update parent fun p =>
      if p.children.contains child then p else { p with children := p.children ++ [child] })
    |>.writeThrough child e.value

/-- Takes an element out of the children of its parent. -/
def detach (r : ElementRegistry) (e : Element) : ElementRegistry :=
  match e.parent with
  | some parent => r.update parent fun p => { p with children := p.children.filter (· ≠ e.id) }
  | none => r

/-- Registers an element, under a parent or at the top. -/
def register (r : ElementRegistry) (spec : ElementSpec) (parent : Option ElementId)
    (lens : Lens) : Except Error ElementRegistry :=
  match parent.filter fun p => !r.contains p with
  | some missing => .error (.elementNotFound missing.text)
  | none =>
    let old := r.get? spec.id
    let r := { r with elements := r.elements.erase spec.id }
    let (value, children, r) :=
      match old with
      | some old =>
        if old.fingerprint = spec.fingerprint ∧ old.kind = spec.kind then
          (old.value, old.children, r)
        else (spec.value, [], r.detach old)
      | none => (spec.value, [], r)
    let e : Element :=
      ⟨spec.id, spec.kind, value, spec.fingerprint, spec.cell, parent, lens, children⟩
    let r := { r with elements := r.elements.insert spec.id e }
    match parent with
    | some parent => .ok (r.adopt parent spec.id)
    | none => .ok r

/-! ## §4. Names. -/

/-- Binds a name to an element, whatever it was bound to. -/
def bind (r : ElementRegistry) (name : String) (id : ElementId) : ElementRegistry :=
  { r with names := r.names.insert name id }

/-- Unbinds a name. -/
def unbind (r : ElementRegistry) (name : String) : ElementRegistry :=
  { r with names := r.names.erase name }

/-- The names bound to an element, in order. -/
def namesOf (r : ElementRegistry) (id : ElementId) : List String :=
  (r.names.filter fun _ bound => bound == id).keys

/-- The elements that a cell created, in order. -/
def elementsOf (r : ElementRegistry) (cell : CellId) : List ElementId :=
  (r.elements.filter fun _ e => e.cell == cell).keys

/-! ## §5. Collecting what is out of reach. -/

/-- The elements that an element owns. -/
def childrenOf (r : ElementRegistry) (id : ElementId) : List ElementId :=
  ((r.get? id).map Element.children).getD []

/-- The elements that bound names reach through children. -/
def reachable (r : ElementRegistry) : List ElementId :=
  closure r.elements.keys r.childrenOf (r.names.values.filter r.contains)

/-- Evicts every element that no bound name reaches.  Returns the evicted ones in order. -/
def collectGarbage (r : ElementRegistry) : List ElementId × ElementRegistry :=
  let kept := r.reachable
  (r.elements.keys.filter fun id => !kept.contains id,
    { r with elements := r.elements.filter fun id _ => kept.contains id })

end ElementRegistry

end Notebook
