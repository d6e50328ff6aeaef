/-
  Notebook.Proofs.Kernel.LastOfClass — the queue keeps the last event of each class.

  Completion requests are one class, and the values for one element are another; any other event is
  in no class.  An event is superseded just by the later ones of its class
  (`supersedes_iff_sameClass`), so what is kept can be said by positions: an event stays where no
  later position holds one of its class.  To be in one class is transitive, which is why it does not
  matter whether a queue was coalesced before more events came in: what was dropped then had one of
  its class behind it, and that one, or a later one still, supersedes whatever the dropped one would
  have superseded.

  Main results:
    * `coalesce_eq_lastOfEach` — which events are kept,
    * `coalesce_coalesce_append` — a queue that was coalesced before more came in,
    * `coalesce_keeps_last` — both, and coalescing twice.
-/
import Mathlib.Data.List.FinRange
import Notebook.Proofs.Element.Superseded

namespace Notebook.Event

variable {a b c e : Event} {events later more : List Event}

/-! ## §1. Classes. -/

/-- What a class of events is about. -/
inductive Topic where
  | completion
  | valueOf (element : ElementId)
deriving DecidableEq, Repr

/-- The topic of an event's class, if it is in one. -/
def topic? : Event → Option Topic
  | .complete _ _ => some .completion
  | .setElement element _ => some (.valueOf element)
  | _ => none

/-- Two events are in one class. -/
def SameClass (a b : Event) : Prop := a.topic?.isSome ∧ a.topic? = b.topic?

instance (a b : Event) : Decidable (SameClass a b) :=
  inferInstanceAs (Decidable (_ ∧ _))

theorem SameClass.trans (h : SameClass a b) (h' : SameClass b c) : SameClass a c :=
  ⟨h.1, h.2.trans h'.2⟩

/-- **An event is superseded by the later ones of its class.** -/
theorem supersedes_iff_sameClass : b.supersedes a = true ↔ SameClass a b := by
  rw [supersedes_iff]
  constructor
  · rintro (⟨n, s, n', s', rfl, rfl⟩ | ⟨x, v, v', rfl, rfl⟩)
    · exact ⟨rfl, rfl⟩
    · exact ⟨rfl, rfl⟩
  · intro h
    obtain ⟨hsome, heq⟩ := h
    cases a with
    | complete n s =>
      -- only a completion request has this topic
      cases b <;> simp_all [topic?]
    | setElement x v => cases b <;> simp_all [topic?]
    | _ => cases hsome

theorem any_supersedes_iff :
    (later.any fun l => l.supersedes e) = true ↔ ∃ l ∈ later, SameClass e l := by
  simp only [List.any_eq_true, supersedes_iff_sameClass]

/-! ## §2. The last event of each class. -/

/-- Behind this position there is no event of the same class. -/
def IsLast (events : List Event) (i : Fin events.length) : Prop :=
  ∀ j, i < j → ¬ SameClass (events.get i) (events.get j)

instance (events : List Event) (i : Fin events.length) : Decidable (IsLast events i) :=
  inferInstanceAs (Decidable (∀ _, _))

/-- The events behind which there is none of their class, in order. -/
def lastOfEach (events : List Event) : List Event :=
  ((List.finRange events.length).filter fun i => IsLast events i).map events.get

theorem isLast_zero : IsLast (e :: later) (0 : Fin (later.length + 1)) ↔
    ¬ ∃ l ∈ later, SameClass e l := by
  constructor
  · rintro h ⟨l, hl, hsame⟩
    obtain ⟨j, rfl⟩ := List.get_of_mem hl
    exact h j.succ (Fin.succ_pos j) hsame
  · intro h j hj hsame
    -- a position behind the first one is a position of the rest
    obtain ⟨j, rfl⟩ := Fin.exists_succ_eq.2 (Fin.pos_iff_ne_zero.1 hj)
    exact h ⟨later.get j, List.get_mem later j, hsame⟩

theorem isLast_succ (i : Fin later.length) : IsLast (e :: later) i.succ ↔ IsLast later i := by
  constructor
  · intro h j hj
    exact h j.succ (Fin.succ_lt_succ_iff.2 hj)
  · intro h j hj
    obtain ⟨j, rfl⟩ := Fin.exists_succ_eq.2 (Fin.pos_iff_ne_zero.1 (Nat.zero_lt_of_lt hj))
    exact h j (Fin.succ_lt_succ_iff.1 hj)

theorem lastOfEach_cons (e : Event) (later : List Event) :
    lastOfEach (e :: later) =
      if ∃ l ∈ later, SameClass e l then lastOfEach later else e :: lastOfEach later := by
  have hrest : (((List.finRange later.length).map Fin.succ).filter
      fun i => decide (IsLast (e :: later) i)).map (e :: later).get = lastOfEach later := by
    rw [List.filter_map, List.map_map]
    simp only [Function.comp_def, isLast_succ]
    rfl
  show ((List.finRange (later.length + 1)).filter
    fun i => decide (IsLast (e :: later) i)).map (e :: later).get = _
  rw [List.finRange_succ, List.filter_cons]
  by_cases h : ∃ l ∈ later, SameClass e l
  · rw [if_pos h, if_neg (by simpa using fun hlast => isLast_zero.1 hlast h)]
    exact hrest
  · rw [if_neg h, if_pos (decide_eq_true (isLast_zero.2 h)), List.map_cons, hrest]
    rfl

/-- **Which events are kept**: those behind which there is none of their class. -/
theorem coalesce_eq_lastOfEach (events : List Event) : coalesce events = lastOfEach events := by
  induction events with
  | nil => rfl
  | cons e later ih =>
    rw [coalesce, lastOfEach_cons, ih]
    simp only [any_supersedes_iff]

/-! ## §3. More events. -/

/-- Dropping what is superseded leaves one of each class. -/
theorem exists_sameClass_coalesce_iff :
    (∃ l ∈ coalesce events, SameClass e l) ↔ ∃ l ∈ events, SameClass e l := by
  constructor
  · rintro ⟨l, hl, hsame⟩
    exact ⟨l, (coalesce_sublist events).subset hl, hsame⟩
  · rintro ⟨l, hl, hsame⟩
    obtain ⟨last, hlast, rfl | hsuper⟩ := exists_mem_coalesce hl
    · exact ⟨last, hlast, hsame⟩
    · exact ⟨last, hlast, hsame.trans (supersedes_iff_sameClass.1 hsuper)⟩

/-- **A queue that was coalesced before more came in** comes to the same. -/
theorem coalesce_coalesce_append (events more : List Event) :
    coalesce (coalesce events ++ more) = coalesce (events ++ more) := by
  induction events with
  | nil => rfl
  | cons e later ih =>
    have hbehind : (∃ l ∈ coalesce later ++ more, SameClass e l) ↔
        ∃ l ∈ later ++ more, SameClass e l := by
      simp only [List.mem_append, or_and_right, exists_or, exists_sameClass_coalesce_iff]
    rw [coalesce]
    simp only [any_supersedes_iff]
    by_cases h : ∃ l ∈ later, SameClass e l
    · -- what was dropped would be dropped now
      have hmore : ∃ l ∈ later ++ more, SameClass e l := by
        obtain ⟨l, hl, hsame⟩ := h
        exact ⟨l, List.mem_append_left more hl, hsame⟩
      rw [if_pos h, ih, List.cons_append, coalesce, if_pos (any_supersedes_iff.2 hmore)]
    · rw [if_neg h, List.cons_append, List.cons_append, coalesce, coalesce, ih]
      simp only [any_supersedes_iff, hbehind]

/-- **The queue keeps the last event of each class**, and nothing is gained by coalescing twice, or
by coalescing before more events come in. -/
theorem coalesce_keeps_last (events : List Event) :
    coalesce events = lastOfEach events ∧ coalesce (coalesce events) = coalesce events ∧
      ∀ more, coalesce (coalesce events ++ more) = coalesce (events ++ more) := by
  refine ⟨coalesce_eq_lastOfEach events, ?_, coalesce_coalesce_append events⟩
  have h := coalesce_coalesce_append events []
  rwa [List.append_nil, List.append_nil] at h

/-- Of three requests the last one stays, and of two values for an element the second. -/
example : coalesce [.complete 1 "d", .setElement ⟨"a"⟩ (.nat 1), .delete ⟨0⟩, .complete 2 "d",
    .setElement ⟨"b"⟩ (.nat 1), .complete 3 "d", .setElement ⟨"a"⟩ (.nat 2)] =
      [.delete ⟨0⟩, .setElement ⟨"b"⟩ (.nat 1), .complete 3 "d", .setElement ⟨"a"⟩ (.nat 2)] := rfl

end Notebook.Event
