/-
  Notebook.Proofs.Element.Positions — positions in the values of composites, read and written.

  A lens is a position in a value, and several lenses in a row are a position further inside.  What
  is written through a lens is read through it again.  All positions beside it keep what they hold,
  but for one case: a key that is written into an array makes an object of it.

  A value has been replaced in another one (`Replaced`) if it is read at its position, and every
  position beside it, at every level, reads as before.  Where a value is written into a copy of what
  stands around it, this depends on the copy (`Lens.Spares`).

  Main results:
    * `Lens.read_write` — what is written is read again,
    * `Lens.read_write_beside` — and nothing beside it is touched,
    * `replaced_concat_iff` — replacing further inside, when a copy is written around it.
-/
import Notebook.Element.Lens

namespace Notebook

namespace Lens

/-! ## §1. Reading at a position. -/

/-- What a value holds at the position; where it has no such position that is null. -/
def read : Lens → Json → Json
  | .identity, value => value
  | .index i, .array items => items[i]?.getD .null
  | .index i, .object fields => (Entries.find? (toString i) fields).getD .null
  | .index _, _ => .null
  | .key k, .object fields => (Entries.find? k fields).getD .null
  | .key _, _ => .null

/-- Two different positions of one value. -/
def Beside (lens other : Lens) : Prop :=
  ∃ s s', lens.segment? = some s ∧ other.segment? = some s' ∧ s ≠ s'

/-- The position can be written without losing others: keys do not fit into an array. -/
def Fits : Lens → Json → Prop
  | .key _, .array _ => False
  | _, _ => True

/-- What a list holds after a write at a place. -/
theorem getElem?_writeItem (items : List Json) (i j : Nat) (child : Json) :
    (writeItem items i child)[j]?.getD .null =
      if j = i then child else items[j]?.getD .null := by
  unfold writeItem
  by_cases hlength : i < items.length
  · rw [if_pos hlength, List.getElem?_set]
    by_cases hj : i = j
    · subst hj
      simp [hlength]
    · simp [hj, Ne.symm hj]
  · -- the list is filled up with nulls, which is what was read there before
    rw [if_neg hlength, List.append_assoc, List.getElem?_append]
    by_cases hold : j < items.length
    · have hne : j ≠ i := by omega
      simp [hold, hne]
    · rw [if_neg hold, List.getElem?_append, List.length_replicate]
      by_cases hfill : j - items.length < i - items.length
      · have hne : j ≠ i := by omega
        simp [hfill, hne, List.getElem?_eq_none (Nat.le_of_not_lt hold)]
      · rw [if_neg hfill]
        by_cases hj : j = i
        · subst hj
          simp
        · have hrest : j - items.length - (i - items.length) ≠ 0 := by omega
          obtain ⟨n, hn⟩ := Nat.exists_eq_succ_of_ne_zero hrest
          simp [hj, hn, List.getElem?_eq_none (Nat.le_of_not_lt hold)]

/-- Nulls with a value behind them are what a write into nothing leaves. -/
theorem getElem?_replicate_concat (i j : Nat) (child : Json) :
    (List.replicate i Json.null ++ [child])[j]?.getD .null = if j = i then child else .null := by
  have h := getElem?_writeItem [] i j child
  simpa [writeItem] using h

/-- So does a new object hold one field. -/
theorem find?_singleton (k k' : String) (child : Json) :
    Entries.find? k' [(k, child)] = if k' = k then some child else none :=
  Entries.find?_insert k child [] k'

/-! ## §2. Reading after writing. -/

/-- **What is written at a position is read there again.** -/
theorem read_write (lens : Lens) (parent child : Json) :
    lens.read (lens.write parent child) = child := by
  cases lens with
  | identity => rfl
  | index i =>
    cases parent with
    | array items => simp only [write, read, getElem?_writeItem, if_true]
    | object fields => simp only [write, read, Entries.find?_insert, if_true, Option.getD_some]
    | _ => simp only [write, read, getElem?_replicate_concat, if_true]
  | key k =>
    cases parent with
    | object fields => simp only [write, read, Entries.find?_insert, if_true, Option.getD_some]
    | _ => simp only [write, read, find?_singleton, if_true, Option.getD_some]

/-- **A write leaves the positions beside it as they are.** -/
theorem read_write_beside {lens other : Lens} (h : lens.Beside other) {parent : Json}
    (hfits : lens.Fits parent) (child : Json) :
    other.read (lens.write parent child) = other.read parent := by
  obtain ⟨s, s', hs, hs', hne⟩ := h
  cases lens with
  | identity => cases hs
  | index i =>
    obtain rfl : toString i = s := Option.some.inj hs
    cases other with
    | identity => cases hs'
    | index j =>
      obtain rfl : toString j = s' := Option.some.inj hs'
      have hj : j ≠ i := fun heq => hne (by rw [heq])
      cases parent with
      | array items => simp only [write, read, getElem?_writeItem, hj, if_false]
      | object fields => simp only [write, read, Entries.find?_insert, hne.symm, if_false]
      | _ => simp only [write, read, getElem?_replicate_concat, hj, if_false]
    | key k =>
      obtain rfl : k = s' := Option.some.inj hs'
      cases parent with
      | object fields => simp only [write, read, Entries.find?_insert, hne.symm, if_false]
      | _ => rfl
  | key k =>
    obtain rfl : k = s := Option.some.inj hs
    cases other with
    | identity => cases hs'
    | index j =>
      obtain rfl : toString j = s' := Option.some.inj hs'
      cases parent with
      | array items => exact absurd hfits id
      | object fields => simp only [write, read, Entries.find?_insert, hne.symm, if_false]
      | _ => simp only [write, read, find?_singleton, hne.symm, if_false, Option.getD_none]
    | key k' =>
      obtain rfl : k' = s' := Option.some.inj hs'
      cases parent with
      | object fields => simp only [write, read, Entries.find?_insert, hne.symm, if_false]
      | _ => simp only [write, read, find?_singleton, hne.symm, if_false, Option.getD_none]

/-- What is read beside a position does not depend on what is written there. -/
theorem read_write_congr {lens other : Lens} (h : lens.Beside other) (parent child child' : Json) :
    other.read (lens.write parent child) = other.read (lens.write parent child') := by
  by_cases hfits : lens.Fits parent
  · rw [read_write_beside h hfits, read_write_beside h hfits]
  · -- a key in an array: either write starts a new object
    cases lens with
    | identity => exact absurd trivial hfits
    | index i => exact absurd trivial hfits
    | key k =>
      cases parent with
      | array items =>
        have hnull : (Lens.key k).Fits .null := trivial
        exact (read_write_beside h hnull child).trans (read_write_beside h hnull child').symm
      | _ => exact absurd trivial hfits

/-- A write into this value leaves beside the position what another value holds there. -/
def Spares (lens : Lens) (own held : Json) : Prop :=
  ∀ other, lens.Beside other → other.read (lens.write own .null) = other.read held

/-- Where the position fits, the two values read the same beside it. -/
theorem spares_iff {lens : Lens} {own held : Json} (hfits : lens.Fits own) :
    lens.Spares own held ↔ ∀ other, lens.Beside other → other.read own = other.read held := by
  constructor
  · intro h other hbeside
    rw [← h other hbeside, read_write_beside hbeside hfits]
  · intro h other hbeside
    rw [← h other hbeside, read_write_beside hbeside hfits]

/-- The parent's value holds the child's value at the position, and the position fits. -/
structure Holds (lens : Lens) (parent child : Json) : Prop where
  read : lens.read parent = child
  fits : lens.Fits parent

/-- Two different places, or two different keys. -/
def Apart : Lens → Lens → Prop
  | .index i, .index j => i ≠ j
  | .key k, .key k' => k ≠ k'
  | _, _ => False

instance : (lens other : Lens) → Decidable (lens.Apart other)
  | .index i, .index j => inferInstanceAs (Decidable (i ≠ j))
  | .key k, .key k' => inferInstanceAs (Decidable (k ≠ k'))
  | .identity, _ | .index _, .identity | .index _, .key _ | .key _, .identity
  | .key _, .index _ => inferInstanceAs (Decidable False)

/-- The digits of a number tell the number. -/
theorem toString_inj {i j : Nat} (h : toString i = toString j) : i = j := by
  have hdigits : Nat.toDigits 10 i = Nat.toDigits 10 j := String.ofList_injective h
  calc i = Nat.ofDigitChars 10 (Nat.toDigits 10 i) 0 := Nat.ofDigitChars_ten_toDigits.symm
    _ = Nat.ofDigitChars 10 (Nat.toDigits 10 j) 0 := by rw [hdigits]
    _ = j := Nat.ofDigitChars_ten_toDigits

theorem Apart.beside {lens other : Lens} (h : lens.Apart other) : lens.Beside other := by
  cases lens with
  | identity => exact absurd h id
  | index i =>
    cases other with
    | index j => exact ⟨_, _, rfl, rfl, fun heq => h (toString_inj heq)⟩
    | _ => exact absurd h id
  | key k =>
    cases other with
    | key k' => exact ⟨_, _, rfl, rfl, h⟩
    | _ => exact absurd h id

/-- What has been written is held. -/
theorem holds_write (lens : Lens) (parent child : Json) :
    lens.Holds (lens.write parent child) child := by
  refine ⟨lens.read_write parent child, ?_⟩
  cases lens with
  | key k => cases parent <;> exact trivial
  | _ => exact trivial

/-- What is held at a position apart from it is held still. -/
theorem Holds.write_apart {lens other : Lens} {parent child : Json} (h : other.Holds parent child)
    (hapart : lens.Apart other) (value : Json) : other.Holds (lens.write parent value) child := by
  have hfits : lens.Fits parent ∧ other.Fits (lens.write parent value) := by
    cases lens with
    | identity => exact absurd hapart id
    | index i =>
      cases other with
      | index j => exact ⟨trivial, trivial⟩
      | _ => exact absurd hapart id
    | key k =>
      cases other with
      | key k' =>
        -- whether a key fits does not depend on the key
        cases parent with
        | array items => exact absurd h.fits id
        | _ => exact ⟨trivial, trivial⟩
      | _ => exact absurd hapart id
  exact ⟨(read_write_beside hapart.beside hfits.1 value).trans h.read, hfits.2⟩

end Lens

/-! ## §3. Positions further inside. -/

/-- What a value holds at a position further inside, by the lenses on the way down. -/
def readAlong (path : List Lens) (value : Json) : Json :=
  path.foldl (fun value lens => lens.read value) value

@[simp] theorem readAlong_nil (value : Json) : readAlong [] value = value := rfl

@[simp] theorem readAlong_cons (lens : Lens) (path : List Lens) (value : Json) :
    readAlong (lens :: path) value = readAlong path (lens.read value) := rfl

@[simp] theorem readAlong_append (path path' : List Lens) (value : Json) :
    readAlong (path ++ path') value = readAlong path' (readAlong path value) :=
  List.foldl_append

/-- The value with another one at a position further inside. -/
def writeAlong : List Lens → Json → Json → Json
  | [], _, child => child
  | lens :: path, whole, child => lens.write whole (writeAlong path (lens.read whole) child)

/-- Writing at a position further inside is writing into what is read there. -/
theorem writeAlong_concat (path : List Lens) (lens : Lens) (whole child : Json) :
    writeAlong (path ++ [lens]) whole child =
      writeAlong path whole (lens.write (readAlong path whole) child) := by
  induction path generalizing whole with
  | nil => rfl
  | cons first path ih => rw [List.cons_append, writeAlong, ih, writeAlong, readAlong_cons]

/-- The patch for a position further inside: the value, nested once per lens. -/
def wrapAlong (path : List Lens) (value : Json) : Json :=
  path.foldr (fun lens patch => lens.wrap patch) value

/-- Positions that part at some level. -/
def BesideAlong : List Lens → List Lens → Prop
  | lens :: path, other :: path' => lens.Beside other ∨ (lens = other ∧ BesideAlong path path')
  | _, _ => False

/-- They part on the way to the last lens, or there. -/
theorem besideAlong_concat_iff {path path' : List Lens} {lens : Lens} :
    BesideAlong (path ++ [lens]) path' ↔ BesideAlong path path' ∨
      ∃ other rest, path' = path ++ other :: rest ∧ lens.Beside other := by
  induction path generalizing path' with
  | nil =>
    cases path' with
    | nil => simp [BesideAlong]
    | cons other rest => simp [BesideAlong]
  | cons first path ih =>
    cases path' with
    | nil => simp [BesideAlong]
    | cons other rest =>
      simp only [List.cons_append, BesideAlong, ih, List.cons.injEq]
      constructor
      · rintro (h | ⟨rfl, h | ⟨other', rest', rfl, hbeside⟩⟩)
        · exact .inl (.inl h)
        · exact .inl (.inr ⟨rfl, h⟩)
        · exact .inr ⟨other', rest', ⟨rfl, rfl⟩, hbeside⟩
      · rintro ((h | ⟨rfl, h⟩) | ⟨other', rest', ⟨rfl, rfl⟩, hbeside⟩)
        · exact .inl h
        · exact .inr ⟨rfl, .inl h⟩
        · exact .inr ⟨rfl, .inr ⟨other', rest', rfl, hbeside⟩⟩

/-- A value in which only one position has been replaced. -/
structure Replaced (path : List Lens) (old new value : Json) : Prop where
  placed : readAlong path new = value
  /-- Every position beside it, at every level, reads as before. -/
  spared : ∀ path', BesideAlong path path' → readAlong path' new = readAlong path' old

/-- **Replacing further inside.**  Where a copy `own` with a new value written into it stands, the
new value has replaced the old one exactly when the copy has replaced what was there and holds
beside the value what was held there. -/
theorem replaced_concat_iff {path : List Lens} {lens : Lens} {old new own value : Json}
    (h : readAlong path new = lens.write own value) :
    Replaced (path ++ [lens]) old new value ↔
      Replaced path old new (lens.write own value) ∧ lens.Spares own (readAlong path old) := by
  constructor
  · intro hreplaced
    refine ⟨⟨h, fun path' hbeside => ?_⟩, fun other hbeside => ?_⟩
    · exact hreplaced.spared path' (besideAlong_concat_iff.2 (.inl hbeside))
    · have hspared := hreplaced.spared (path ++ [other])
        (besideAlong_concat_iff.2 (.inr ⟨other, [], rfl, hbeside⟩))
      rw [readAlong_append, readAlong_append, h] at hspared
      exact (Lens.read_write_congr hbeside own .null value).trans hspared
  · intro ⟨hreplaced, hspares⟩
    refine ⟨?_, fun path' hbeside => ?_⟩
    · rw [readAlong_append, h]
      exact lens.read_write own value
    · rcases besideAlong_concat_iff.1 hbeside with hinside | ⟨other, rest, rfl, hother⟩
      · exact hreplaced.spared path' hinside
      · rw [readAlong_append, readAlong_append, readAlong_cons, readAlong_cons, h,
          Lens.read_write_congr hother own value .null, hspares other hother]

end Notebook
