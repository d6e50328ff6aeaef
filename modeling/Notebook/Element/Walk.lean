/-
  Notebook.Element.Walk — the ways through a registry, one element at a time.

  `ElementRegistry.lineage` and `ElementRegistry.reachable` say at once which elements a new value
  concerns and which ones names reach.  The registry finds them step by step.  A patch and a new
  value are each carried up from element to element, on two walks of their own, which note where
  they have been and go no further when they come back there.  A collection keeps a stack of what is
  still to be marked, takes out what was not marked, one element after the other, and then goes
  through the lists of children of what is left.
-/
import Notebook.Element.Registry

namespace Notebook.ElementRegistry

/-! ## §1. Carrying a patch up. -/

theorem mem_keys {r : ElementRegistry} {id : ElementId} {e : Element}
    (h : r.get? id = some e) : id ∈ r.elements.keys := by
  rw [Table.mem_keys_iff, ← get?, h]
  rfl

/-- Only registered elements have parents. -/
theorem mem_keys_of_parent? {r : ElementRegistry} {id parent : ElementId}
    (h : r.parent? id = some parent) : id ∈ r.elements.keys := by
  cases hget : r.get? id with
  | none =>
    rw [parent?, hget] at h
    cases h
  | some e => exact mem_keys hget

/-- The lens of an element. -/
def lensOf (r : ElementRegistry) (id : ElementId) : Lens :=
  ((r.get? id).map Element.lens).getD .identity

/-- Carries a patch up from `current`: once per parent that is registered, the patch goes under the
key of the lens.  Ends at an element without such a parent, or at one that was visited. -/
def projectUp (r : ElementRegistry) (visited : List ElementId) (current : ElementId)
    (patch : Json) : ElementId × Json :=
  if current ∈ visited then (current, patch)
  else
    match _h : r.parent? current with
    | none => (current, patch)
    | some parent =>
      r.projectUp (visited ++ [current]) parent ((r.lensOf current).wrap patch)
termination_by (unseen r.elements.keys visited).length
decreasing_by
  exact unseen_append_lt (mem_keys_of_parent? ‹_›) ‹_› (List.mem_singleton_self current)

/-- The root above an element, and the patch for it. -/
def resolveLens (r : ElementRegistry) (id : ElementId) (value : Json) :
    Except Error (ElementId × Json) :=
  match r.get? id with
  | none => .error (.elementNotFound id.text)
  | some _ => .ok (r.projectUp [] id value)

/-! ## §2. Carrying a value up. -/

/-- Changing a registered element leaves the identifiers as they are. -/
theorem keys_update (r : ElementRegistry) (id : ElementId) (f : Element → Element) :
    (r.update id f).elements.keys = r.elements.keys := by
  unfold update Table.modify
  cases hget : r.elements.get? id with
  | none => rfl
  | some e => exact Table.keys_insert_of_get? hget (f e)

/-- Gives `child` a value, then its parent the value that has this one written in, and so on, as
far as parents are registered and were not visited. -/
def storeUp (r : ElementRegistry) (visited : List ElementId) (child : ElementId) (value : Json) :
    ElementRegistry :=
  if child ∈ visited then r
  else
    match _h : r.get? child with
    | none => r
    | some e =>
      let written := r.update child fun e => { e with value }
      match e.parent with
      | none => written
      | some parent =>
        match written.get? parent with
        | none => written
        | some above =>
          written.storeUp (visited ++ [child]) parent (e.lens.write above.value value)
termination_by (unseen r.elements.keys visited).length
decreasing_by
  rw [keys_update]
  exact unseen_append_lt (mem_keys ‹_›) ‹_› (List.mem_singleton_self child)

/-- Gives an element a value.  Returns the root and the patch, and the registry afterwards, which
is the old one if there is no such element. -/
def storeValue (r : ElementRegistry) (id : ElementId) (value : Json) :
    Except Error (ElementId × Json) × ElementRegistry :=
  match r.resolveLens id value with
  | .error e => (.error e, r)
  | .ok answer => (.ok answer, r.storeUp [] id value)

/-! ## §3. Marking and sweeping. -/

/-- What is not registered owns nothing. -/
theorem childrenOf_of_notMem_keys {r : ElementRegistry} {id : ElementId}
    (h : id ∉ r.elements.keys) : r.childrenOf id = [] := by
  cases hget : r.get? id with
  | none =>
    rw [childrenOf, hget]
    rfl
  | some e => exact absurd (mem_keys hget) h

/-- Marks what is on the stack, and what the marked elements own. -/
def mark (r : ElementRegistry) : (stack live : List ElementId) → List ElementId
  | [], live => live
  | id :: stack, live =>
    if id ∈ live then r.mark stack live
    else r.mark ((r.childrenOf id).reverse ++ stack) (live ++ [id])
termination_by stack live => ((unseen r.elements.keys live).length, stack.length)
decreasing_by
  · exact Prod.Lex.right _ (Nat.lt_succ_self _)
  · by_cases hid : id ∈ r.elements.keys
    · exact Prod.Lex.left _ _ (unseen_append_lt hid ‹_› (List.mem_singleton_self id))
    · -- a name may be bound to what is not registered: then the stack gets shorter
      rw [childrenOf_of_notMem_keys hid, unseen_append_of_notMem hid]
      exact Prod.Lex.right _ (Nat.lt_succ_self _)

/-- Takes elements out, one after the other. -/
def evict (r : ElementRegistry) (ids : List ElementId) : ElementRegistry :=
  ids.foldl (fun r id => { r with elements := r.elements.erase id }) r

/-- Keeps in every list of children what was marked. -/
def pruneChildren (r : ElementRegistry) (live : List ElementId) : ElementRegistry :=
  { r with elements := r.elements.map fun _ e =>
      { e with children := e.children.filter live.contains } }

/-- Evicts every element that is not marked from the bound names.  Returns the evicted ones in
order. -/
def sweep (r : ElementRegistry) : List ElementId × ElementRegistry :=
  let live := r.mark r.names.values.reverse []
  let evicted := r.elements.keys.filter fun id => !live.contains id
  (evicted, (r.evict evicted).pruneChildren live)

end Notebook.ElementRegistry
