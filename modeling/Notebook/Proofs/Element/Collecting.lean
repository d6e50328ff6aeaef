/-
  Notebook.Proofs.Element.Collecting — what a collection of garbage evicts.

  A name holds the element that it is bound to, and an element holds its children
  (`ElementRegistry.Held`).  A collection marks from the bound names with a stack, evicts what was
  not marked and then goes through the lists of children that are left.  Marking finds exactly what
  is held, also where names are bound to what is not registered.  The children of what was marked
  are marked themselves, and so the last step finds nothing to do: the survivors stay as they are.

  Main results:
    * `ElementRegistry.mem_marked_iff` — marking finds what is held,
    * `ElementRegistry.sweep_eq` — marking and sweeping is collecting,
    * `ElementRegistry.Reached.sweep_exact` — what every collection after a history does.
-/
import Notebook.Element.Walk
import Notebook.Proofs.Element.Patches
import Notebook.Proofs.Element.Mirror

namespace Notebook.ElementRegistry

variable {r r' : ElementRegistry} {id x c p : ElementId} {stack live : List ElementId}

/-! ## §1. What is held. -/

/-- What names reach through lists of children. -/
inductive Held (r : ElementRegistry) : ElementId → Prop
  | named {name : String} {x : ElementId} (h : r.names.get? name = some x) : Held r x
  | owned {p c : ElementId} (hp : Held r p) (hc : c ∈ r.childrenOf p) : Held r c

/-- What is reached are the registered elements that are held. -/
theorem mem_reachable_iff : x ∈ r.reachable ↔ r.contains x = true ∧ r.Held x := by
  constructor
  · intro hx
    refine reachable_induction (s := fun x => r.contains x = true ∧ r.Held x) ?_ ?_ x hx
    · intro name root hname hlive
      exact ⟨hlive, .named hname⟩
    · intro p c _ hp hc hlive
      exact ⟨hlive, hp.2.owned hc⟩
  · rintro ⟨hlive, hheld⟩
    induction hheld with
    | named hname => exact mem_reachable_of_name hname hlive
    | @owned p c hp hc ih =>
      have hp' := contains_of_mem_childrenOf hc
      exact mem_reachable_of_child (ih hp') hc hlive

/-! ## §2. Marking. -/

/-- What was marked stays marked, and all on the stack is. -/
theorem subset_mark (r : ElementRegistry) (stack live : List ElementId) :
    ∀ x, x ∈ live ∨ x ∈ stack → x ∈ r.mark stack live := by
  fun_induction r.mark stack live with
  | case1 live => exact fun x hx => hx.resolve_right List.not_mem_nil
  | case2 id stack live hid ih =>
    rintro x (hx | hx)
    · exact ih x (.inl hx)
    · rcases List.mem_cons.1 hx with rfl | hx
      · exact ih x (.inl hid)
      · exact ih x (.inr hx)
  | case3 id stack live hid ih =>
    rintro x (hx | hx)
    · exact ih x (.inl (List.mem_append_left _ hx))
    · rcases List.mem_cons.1 hx with rfl | hx
      · exact ih x (.inl (List.mem_append_right _ (List.mem_singleton_self x)))
      · exact ih x (.inr (List.mem_append_right _ hx))

/-- What composites pass on to their children, and all that is marked already or on the stack has,
everything has that is marked in the end. -/
theorem mark_subset {s : ElementId → Prop} (hchild : ∀ p c, s p → c ∈ r.childrenOf p → s c)
    (hstack : ∀ x ∈ stack, s x) (hlive : ∀ x ∈ live, s x) : ∀ x ∈ r.mark stack live, s x := by
  fun_induction r.mark stack live with
  | case1 live => exact hlive
  | case2 id stack live hid ih =>
    exact ih (fun x hx => hstack x (List.mem_cons_of_mem _ hx)) hlive
  | case3 id stack live hid ih =>
    have hs : s id := hstack id List.mem_cons_self
    refine ih (fun x hx => ?_) (fun x hx => ?_)
    · rcases List.mem_append.1 hx with hx | hx
      · exact hchild id x hs (List.mem_reverse.1 hx)
      · exact hstack x (List.mem_cons_of_mem _ hx)
    · rcases List.mem_append.1 hx with hx | hx
      · exact hlive x hx
      · exact List.mem_singleton.1 hx ▸ hs

/-- As long as the children of what was marked are marked or on the stack, in the end all of them
are marked. -/
theorem mark_closed (h : ∀ p ∈ live, ∀ c ∈ r.childrenOf p, c ∈ live ∨ c ∈ stack) :
    ∀ p ∈ r.mark stack live, ∀ c ∈ r.childrenOf p, c ∈ r.mark stack live := by
  fun_induction r.mark stack live with
  | case1 live => exact fun p hp c hc => (h p hp c hc).resolve_right List.not_mem_nil
  | case2 id stack live hid ih =>
    refine ih fun p hp c hc => ?_
    rcases h p hp c hc with hc | hc
    · exact .inl hc
    · rcases List.mem_cons.1 hc with rfl | hc
      · exact .inl hid
      · exact .inr hc
  | case3 id stack live hid ih =>
    refine ih fun p hp c hc => ?_
    rcases List.mem_append.1 hp with hp | hp
    · rcases h p hp c hc with hc | hc
      · exact .inl (List.mem_append_left _ hc)
      · rcases List.mem_cons.1 hc with rfl | hc
        · exact .inl (List.mem_append_right _ (List.mem_singleton_self c))
        · exact .inr (List.mem_append_right _ hc)
    · -- the element that has just been marked: its children were put on the stack
      obtain rfl := List.mem_singleton.1 hp
      exact .inr (List.mem_append_left _ (List.mem_reverse.2 hc))

/-- What a collection marks. -/
def marked (r : ElementRegistry) : List ElementId := r.mark r.names.values.reverse []

/-- **Marking finds what is held.** -/
theorem mem_marked_iff : x ∈ r.marked ↔ r.Held x := by
  constructor
  · refine mark_subset (fun p c hp hc => hp.owned hc) (fun x hx => ?_)
      (fun x hx => absurd hx List.not_mem_nil) x
    obtain ⟨⟨name, y⟩, hmem, rfl⟩ := List.mem_map.1 (List.mem_reverse.1 hx)
    exact .named ((Table.get?_eq_some_iff r.names).2 hmem)
  · intro hheld
    induction hheld with
    | @named name x hname =>
      refine subset_mark r _ _ x (.inr (List.mem_reverse.2 ?_))
      exact List.mem_map.2 ⟨(name, x), (Table.get?_eq_some_iff r.names).1 hname, rfl⟩
    | @owned p c hp hc ih =>
      exact mark_closed (fun p hp => absurd hp List.not_mem_nil) p ih c hc

/-! ## §3. Sweeping. -/

/-- Evicting takes out exactly the given elements. -/
theorem get?_evict (r : ElementRegistry) (ids : List ElementId) (x : ElementId) :
    (r.evict ids).get? x = if x ∈ ids then none else r.get? x := by
  induction ids generalizing r with
  | nil => rfl
  | cons id ids ih =>
    refine (ih (r.without id)).trans ?_
    rw [get?_without]
    by_cases hx : x = id <;> simp [hx]

theorem names_evict (r : ElementRegistry) (ids : List ElementId) :
    (r.evict ids).names = r.names := by
  induction ids generalizing r with
  | nil => rfl
  | cons id ids ih => exact ih (r.without id)

theorem get?_pruneChildren (r : ElementRegistry) (live : List ElementId) (x : ElementId) :
    (r.pruneChildren live).get? x =
      (r.get? x).map fun e => { e with children := e.children.filter live.contains } := by
  unfold pruneChildren get?
  exact Table.get?_map _ r.elements x

/-- An element is evicted if it is registered and not held. -/
theorem mem_evicted_iff : x ∈ r.sweep.1 ↔ r.contains x = true ∧ ¬ r.Held x := by
  show x ∈ r.elements.keys.filter (fun id => !r.marked.contains id) ↔ _
  rw [List.mem_filter, mem_keys_iff_contains, ← mem_marked_iff]
  simp

/-- **Survivors stay as they are.**  The children of what is marked are marked, so that no list of
children gets shorter. -/
theorem get?_sweep (r : ElementRegistry) (x : ElementId) :
    r.sweep.2.get? x = if x ∈ r.sweep.1 then none else r.get? x := by
  show ((r.evict r.sweep.1).pruneChildren r.marked).get? x = _
  rw [get?_pruneChildren, get?_evict]
  split
  · rfl
  · rename_i hkept
    cases hget : r.get? x with
    | none => rfl
    | some e =>
      have hheld : r.Held x := by
        by_contra hnot
        exact hkept (mem_evicted_iff.2 ⟨contains_of_get? hget, hnot⟩)
      have hall : ∀ c ∈ e.children, r.marked.contains c = true := by
        intro c hc
        rw [← childrenOf_eq hget] at hc
        exact List.contains_iff_mem.2 (mem_marked_iff.2 (hheld.owned hc))
      rw [Option.map_some, List.filter_eq_self.2 hall]

theorem names_sweep (r : ElementRegistry) : r.sweep.2.names = r.names :=
  names_evict r _

/-- **Marking and sweeping is collecting.** -/
theorem sweep_eq (r : ElementRegistry) : r.sweep = r.collectGarbage := by
  have hmem : ∀ x, r.contains x = true → (x ∈ r.marked ↔ x ∈ r.reachable) := by
    intro x hlive
    rw [mem_marked_iff, mem_reachable_iff, and_iff_right hlive]
  have hevicted : r.sweep.1 = r.collectGarbage.1 := by
    refine List.filter_congr fun x hx => ?_
    have hiff := hmem x (mem_keys_iff_contains.1 hx)
    show (!r.marked.contains x) = !r.reachable.contains x
    rw [Bool.not_eq_eq_eq_not, Bool.not_not, Bool.eq_iff_iff, List.contains_iff_mem,
      List.contains_iff_mem, hiff]
  refine Prod.ext hevicted (eq_of_get? (fun x => ?_) (names_sweep r))
  rw [get?_sweep, get?_collectGarbage]
  cases hget : r.get? x with
  | none => simp
  | some e =>
    have hlive := contains_of_get? hget
    have hiff : x ∈ r.sweep.1 ↔ x ∉ r.reachable := by
      rw [mem_evicted_iff, and_iff_right hlive, mem_reachable_iff, and_iff_right hlive]
    by_cases hx : x ∈ r.reachable <;> simp [hiff, hx]

/-! ## §4. Every collection. -/

/-- What was held is held by what is left. -/
theorem Held.sweep (h : r.Held x) : r.sweep.2.Held x := by
  induction h with
  | named hname => exact .named (by rwa [names_sweep])
  | @owned p c hp hc ih =>
    -- the composite is held, so it is kept as it is
    have hkept : p ∉ r.sweep.1 := fun hp' => (mem_evicted_iff.1 hp').2 hp
    refine ih.owned ?_
    rwa [childrenOf, get?_sweep, if_neg hkept, ← childrenOf]

/-- What is left is held, so a second collection finds nothing to evict. -/
theorem sweep_sweep (r : ElementRegistry) : r.sweep.2.sweep = ([], r.sweep.2) := by
  have hnone : r.sweep.2.sweep.1 = [] := by
    refine List.eq_nil_iff_forall_not_mem.2 fun x hx => ?_
    obtain ⟨hlive, hnot⟩ := mem_evicted_iff.1 hx
    obtain ⟨e, he⟩ := Option.isSome_iff_exists.1 hlive
    change r.sweep.2.get? x = some e at he
    rw [get?_sweep] at he
    split at he
    · cases he
    · rename_i hkept
      refine hkept (mem_evicted_iff.2 ⟨contains_of_get? he, fun hheld => hnot hheld.sweep⟩)
  refine Prod.ext hnone (eq_of_get? (fun x => ?_) (names_sweep _))
  rw [get?_sweep, hnone, if_neg List.not_mem_nil]

/-- **A collection evicts what no name reaches, and nothing else changes.**  After every history the
children of registered elements are registered.  A collection, which marks and sweeps, returns in
order the registered elements that bound names do not reach through children; it takes out these
and leaves every other element and all names as they are; another one finds nothing more. -/
theorem Reached.sweep_exact (hr : r.Reached) :
    (∀ p c, c ∈ r.childrenOf p → r.contains c = true) ∧
      r.sweep = r.collectGarbage ∧
      r.sweep.1.Pairwise (fun a b => compare a b = .lt) ∧
      (∀ x, x ∈ r.sweep.1 ↔ r.contains x = true ∧ ¬ r.Held x) ∧
      (∀ x, r.sweep.2.get? x = if x ∈ r.sweep.1 then none else r.get? x) ∧
      r.sweep.2.names = r.names ∧
      r.sweep.2.sweep = ([], r.sweep.2) := by
  have hordered : r.sweep.1.Pairwise fun a b => compare a b = .lt :=
    r.elements.keys_ascending.filter _
  exact ⟨hr.sound.live, sweep_eq r, hordered, fun x => mem_evicted_iff, get?_sweep r,
    names_sweep r, sweep_sweep r⟩

/-- An array with one item, and an input by itself.  A name is bound to the item, another one to
nothing that is registered. -/
def adrift : ElementRegistry :=
  let r : ElementRegistry := (extend {} "arr" .array (.array []) none .identity)
  let r := r.extend "item" (.leaf "slider") (.int 1) (some ⟨"arr"⟩) (.index 0)
  let r := r.extend "stray" (.leaf "text") (.string "") none .identity
  (r.bind "first" ⟨"item"⟩).bind "ghost" ⟨"nowhere"⟩

theorem adrift_reached : adrift.Reached :=
  .bind (.bind (Orderly.reached (.extend (.extend (.extend .empty (by decide) (by decide))
    (by decide) (by decide)) (by decide) (by decide))) "first" ⟨"item"⟩) "ghost" ⟨"nowhere"⟩

theorem adrift_held (h : adrift.Held x) : x ∈ [⟨"item"⟩, ⟨"nowhere"⟩] := by
  induction h with
  | @named name x hname =>
    have hmem := (Table.get?_eq_some_iff adrift.names).1 hname
    have hnames : adrift.names.entries = [("first", ⟨"item"⟩), ("ghost", ⟨"nowhere"⟩)] := rfl
    rw [hnames] at hmem
    exact List.mem_map_of_mem (f := Prod.snd) hmem
  | owned hp hc ih =>
    -- neither of them owns anything
    simp only [List.mem_cons, List.not_mem_nil, or_false] at ih
    obtain rfl | rfl := ih
    · cases hc
    · cases hc

/-- The array and the other input go, the item of the array stays as it is. -/
theorem adrift_swept : adrift.Reached ∧
    (⟨"arr"⟩ ∈ adrift.sweep.1 ∧ ⟨"stray"⟩ ∈ adrift.sweep.1 ∧ ⟨"item"⟩ ∉ adrift.sweep.1) ∧
    adrift.sweep.2.get? ⟨"item"⟩ = adrift.get? ⟨"item"⟩ ∧
    adrift.sweep.2.names = adrift.names ∧ adrift.sweep.2.sweep.1 = [] := by
  obtain ⟨-, -, -, hevicted, hkept, hnames, hagain⟩ := adrift_reached.sweep_exact
  have hitem : ⟨"item"⟩ ∉ adrift.sweep.1 := by
    intro hmem
    have hname : adrift.names.get? "first" = some ⟨"item"⟩ := by decide
    exact ((hevicted _).1 hmem).2 (.named hname)
  refine ⟨adrift_reached, ⟨?_, ?_, hitem⟩, ?_, hnames, by rw [hagain]⟩
  · exact (hevicted _).2 ⟨by decide, fun hheld => absurd (adrift_held hheld) (by decide)⟩
  · exact (hevicted _).2 ⟨by decide, fun hheld => absurd (adrift_held hheld) (by decide)⟩
  · rw [hkept, if_neg hitem]

end Notebook.ElementRegistry
