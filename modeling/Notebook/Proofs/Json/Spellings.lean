/-
  Notebook.Proofs.Json.Spellings — in whatever order the fields stand.

  A value can be written with the fields of its objects in any order: as the declarations have them,
  with the keys sorted, or otherwise.  Such documents are clean, that is, readable and without
  repeated keys, and they have one normal form; each is a spelling of the others.  The parts of two
  spellings are spellings of each other, whether they are found by position or by key.

  Main results:
    * `Json.isStandard_normal` — the normal form of a clean document is in standard form,
    * `Json.Respells.of_array` / `Json.Respells.field` — the parts of two spellings,
    * `Json.Respells.filter_ne` — what is left of them without the fields under one key.
-/
import Notebook.Proofs.Json.Texts

namespace Notebook

/-- Looking for an entry by the order of the keys, or by their equality. -/
theorem Entries.find?_eq_lookup {ν : Type} (key : String) (fields : List (String × ν)) :
    Entries.find? key fields = fields.lookup key := by
  induction fields with
  | nil => rfl
  | cons f rest ih =>
    obtain ⟨k, v⟩ := f
    rw [List.lookup_cons]
    by_cases hk : key = k
    · simp [Entries.find?, hk]
    · have hne : (key == k) = false := beq_false_of_ne hk
      simp [Entries.find?, hk, hne, ih]

theorem lookup_eq_none_of_not_mem {ν : Type} {key : String} {fields : List (String × ν)}
    (h : key ∉ fields.map Prod.fst) : fields.lookup key = none := by
  rw [List.lookup_eq_none_iff]
  intro f hf
  have hne : key ≠ f.1 := fun heq => h (heq ▸ List.mem_map_of_mem hf)
  simpa using hne

theorem lookup_filter_ne {ν : Type} (fields : List (String × ν)) (key k : String) :
    (fields.filter fun f => f.1 != key).lookup k = if k = key then none else fields.lookup k := by
  induction fields with
  | nil => simp
  | cons f rest ih =>
    by_cases hf : f.1 = key
    · rw [List.filter_cons_of_neg (by simp [hf]), ih, List.lookup_cons]
      split
      · rfl
      · rename_i hk
        rw [hf, beq_false_of_ne hk]
    · rw [List.filter_cons_of_pos (by simp [hf]), List.lookup_cons, List.lookup_cons, ih]
      by_cases hk : k = key
      · have hne : (k == f.1) = false := beq_false_of_ne (hk ▸ Ne.symm hf)
        simp [hk, hk ▸ hne]
      · simp [hk]

theorem lookup_of_mem {ν : Type} {fields : List (String × ν)} (hnodup : (fields.map Prod.fst).Nodup)
    {f : String × ν} (hf : f ∈ fields) : fields.lookup f.1 = some f.2 := by
  induction fields with
  | nil => cases hf
  | cons g rest ih =>
    obtain ⟨hg, hrest⟩ := List.nodup_cons.1 hnodup
    rw [List.lookup_cons]
    rcases List.mem_cons.1 hf with rfl | hf
    · rw [beq_self_eq_true]
    · have hne : f.1 ≠ g.1 := fun heq => hg (heq ▸ List.mem_map_of_mem hf)
      rw [beq_false_of_ne hne]
      exact ih hrest hf

/-- Keys in increasing order do not repeat. -/
theorem nodup_of_ascending {ν : Type} {fields : List (String × ν)}
    (h : Entries.Ascending fields) : (fields.map Prod.fst).Nodup := by
  refine List.pairwise_map.2 (h.imp fun {a b} hlt heq => ?_)
  rw [heq] at hlt
  simp at hlt

theorem mem_of_lookup {ν : Type} {key : String} {v : ν} {fields : List (String × ν)}
    (h : fields.lookup key = some v) : (key, v) ∈ fields := by
  obtain ⟨before, after, rfl, -⟩ := List.lookup_eq_some_iff.1 h
  simp

namespace Json

/-! ## §1. Clean documents. -/

mutual

/-- Whether a document is a value but for the order of fields: it is readable, doubles are in
standard form and no object repeats a key. -/
def isClean : Json → Bool
  | .array items => areClean items
  | .object fields => decide (fields.map Prod.fst).Nodup && haveClean fields
  | .double d => d.isStandard
  | .unreadable => false
  | .null => true
  | .bool _ => true
  | .int _ => true
  | .string _ => true

/-- Whether all items of an array are clean. -/
def areClean : List Json → Bool
  | [] => true
  | item :: rest => isClean item && areClean rest

/-- Whether all fields of an object have clean values. -/
def haveClean : List (String × Json) → Bool
  | [] => true
  | (_, value) :: rest => isClean value && haveClean rest

end

variable {items : List Json} {fields fields' done : List (String × Json)} {key : String}
  {doc v w : Json}

theorem areClean_iff : areClean items = true ↔ ∀ v ∈ items, v.isClean = true := by
  induction items with
  | nil => simp [areClean]
  | cons item rest ih => simp [areClean, ih]

theorem haveClean_iff : haveClean fields = true ↔ ∀ f ∈ fields, f.2.isClean = true := by
  induction fields with
  | nil => simp [haveClean]
  | cons f rest ih => simp [haveClean, ih]

theorem haveStandard_iff :
    haveStandard fields = true ↔ ∀ f ∈ fields, f.2.isStandard = true := by
  induction fields with
  | nil => simp [haveStandard]
  | cons f rest ih => simp [haveStandard, ih]

@[simp] theorem isClean_string (s : String) : (string s).isClean = true := rfl

@[simp] theorem isClean_bool (b : Bool) : (bool b).isClean = true := rfl

@[simp] theorem isClean_nat (n : Nat) : (nat n).isClean = true := rfl

theorem isClean_array : (array items).isClean = true ↔ ∀ v ∈ items, v.isClean = true :=
  areClean_iff

@[simp] theorem isClean_object : (object fields).isClean = true ↔
    (fields.map Prod.fst).Nodup ∧ ∀ f ∈ fields, f.2.isClean = true := by
  show (decide (fields.map Prod.fst).Nodup && haveClean fields) = true ↔ _
  rw [Bool.and_eq_true, decide_eq_true_eq, haveClean_iff]

mutual

theorem isReadable_of_isClean : (v : Json) → v.isClean = true → v.isReadable = true
  | .null, _ => rfl
  | .bool _, _ => rfl
  | .int _, _ => rfl
  | .double _, _ => rfl
  | .string _, _ => rfl
  | .unreadable, h => h
  | .array items, h => areReadable_of_areClean items h
  | .object fields, h => haveReadable_of_haveClean fields (Bool.and_eq_true_iff.1 h).2

theorem areReadable_of_areClean : (items : List Json) → areClean items = true →
    areReadable items = true
  | [], _ => rfl
  | item :: rest, h => by
    obtain ⟨hitem, hrest⟩ := Bool.and_eq_true_iff.1 h
    exact Bool.and_eq_true_iff.2
      ⟨isReadable_of_isClean item hitem, areReadable_of_areClean rest hrest⟩

theorem haveReadable_of_haveClean : (fields : List (String × Json)) → haveClean fields = true →
    haveReadable fields = true
  | [], _ => rfl
  | (_, value) :: rest, h => by
    obtain ⟨hvalue, hrest⟩ := Bool.and_eq_true_iff.1 h
    exact Bool.and_eq_true_iff.2
      ⟨isReadable_of_isClean value hvalue, haveReadable_of_haveClean rest hrest⟩

end

mutual

/-- A value in standard form is a clean document. -/
theorem isClean_of_isStandard : (v : Json) → v.isStandard = true → v.isClean = true
  | .null, _ => rfl
  | .bool _, _ => rfl
  | .int _, _ => rfl
  | .double _, h => h
  | .string _, _ => rfl
  | .unreadable, h => h
  | .array items, h => areClean_of_areStandard items h
  | .object fields, h => by
    obtain ⟨hkeys, hvalues⟩ := Bool.and_eq_true_iff.1 h
    have hascending := of_decide_eq_true hkeys
    exact Bool.and_eq_true_iff.2 ⟨decide_eq_true (nodup_of_ascending hascending),
      haveClean_of_haveStandard fields hvalues⟩

theorem areClean_of_areStandard : (items : List Json) → areStandard items = true →
    areClean items = true
  | [], _ => rfl
  | item :: rest, h => by
    obtain ⟨hitem, hrest⟩ := Bool.and_eq_true_iff.1 h
    exact Bool.and_eq_true_iff.2
      ⟨isClean_of_isStandard item hitem, areClean_of_areStandard rest hrest⟩

theorem haveClean_of_haveStandard : (fields : List (String × Json)) →
    haveStandard fields = true → haveClean fields = true
  | [], _ => rfl
  | (_, value) :: rest, h => by
    obtain ⟨hvalue, hrest⟩ := Bool.and_eq_true_iff.1 h
    exact Bool.and_eq_true_iff.2
      ⟨isClean_of_isStandard value hvalue, haveClean_of_haveStandard rest hrest⟩

end

/-! ## §2. Normal forms. -/

theorem normalItems_eq (items : List Json) : normalItems items = items.map normal := by
  induction items with
  | nil => rfl
  | cons item rest ih => exact congrArg (item.normal :: ·) ih

theorem ascending_normalFields (h : Entries.Ascending done) :
    Entries.Ascending (normalFields fields done) := by
  induction fields generalizing done with
  | nil => exact h
  | cons f rest ih => exact ih (Entries.ascending_insert h f.1 f.2.normal)

/-- Fields of the normal form were there before or are given. -/
theorem mem_normalFields {e : String × Json} (he : e ∈ normalFields fields done) :
    e ∈ done ∨ ∃ f ∈ fields, e = (f.1, f.2.normal) := by
  induction fields generalizing done with
  | nil => exact .inl he
  | cons f rest ih =>
    rcases ih he with he | ⟨g, hg, heq⟩
    · rcases Entries.mem_insert he with heq | he
      · exact .inr ⟨f, List.mem_cons_self .., heq⟩
      · exact .inl he
    · exact .inr ⟨g, List.mem_cons_of_mem _ hg, heq⟩

/-- What the normal form has under a key, where no key repeats. -/
theorem find?_normalFields (h : (fields.map Prod.fst).Nodup) (key : String) :
    Entries.find? key (normalFields fields done) =
      ((fields.lookup key).map normal).or (Entries.find? key done) := by
  induction fields generalizing done with
  | nil => rfl
  | cons f rest ih =>
    obtain ⟨k, v⟩ := f
    obtain ⟨hk, hrest⟩ := List.nodup_cons.1 h
    show Entries.find? key (normalFields rest (Entries.insert k v.normal done)) = _
    rw [ih hrest, Entries.find?_insert, List.lookup_cons]
    by_cases hkey : key = k
    · -- the key does not come again, so the rest has nothing to say about it
      subst hkey
      rw [lookup_eq_none_of_not_mem hk]
      simp
    · have hne : (key == k) = false := beq_false_of_ne hkey
      simp [hkey, hne]

mutual

/-- The normal form of a clean document is in standard form. -/
theorem isStandard_normal : (v : Json) → v.isClean = true → v.normal.isStandard = true
  | .null, _ => rfl
  | .bool _, _ => rfl
  | .int _, _ => rfl
  | .double _, h => h
  | .string _, _ => rfl
  | .unreadable, h => h
  | .array items, h => areStandard_normalItems items h
  | .object fields, h => by
    obtain ⟨-, hvalues⟩ := Bool.and_eq_true_iff.1 h
    have hstandard := haveStandard_iff.1 (haveStandard_normal fields hvalues)
    refine Bool.and_eq_true_iff.2 ⟨decide_eq_true ?_, haveStandard_iff.2 fun e he => ?_⟩
    · exact ascending_normalFields List.Pairwise.nil
    · rcases mem_normalFields he with he | ⟨f, hf, rfl⟩
      · exact absurd he List.not_mem_nil
      · exact hstandard _ (List.mem_map_of_mem hf)

theorem areStandard_normalItems : (items : List Json) → areClean items = true →
    areStandard (normalItems items) = true
  | [], _ => rfl
  | item :: rest, h => by
    obtain ⟨hitem, hrest⟩ := Bool.and_eq_true_iff.1 h
    exact Bool.and_eq_true_iff.2
      ⟨isStandard_normal item hitem, areStandard_normalItems rest hrest⟩

theorem haveStandard_normal : (fields : List (String × Json)) → haveClean fields = true →
    haveStandard (fields.map fun f => (f.1, f.2.normal)) = true
  | [], _ => rfl
  | (_, value) :: rest, h => by
    obtain ⟨hvalue, hrest⟩ := Bool.and_eq_true_iff.1 h
    exact Bool.and_eq_true_iff.2
      ⟨isStandard_normal value hvalue, haveStandard_normal rest hrest⟩

end

/-! ## §3. Spellings. -/

/-- Two clean documents with one normal form: they differ in the order of fields at most. -/
structure Respells (doc v : Json) : Prop where
  clean : doc.isClean = true
  source : v.isClean = true
  normal : doc.normal = v.normal

namespace Respells

theorem refl (h : v.isClean = true) : v.Respells v := ⟨h, h, rfl⟩

/-- The normal form is a spelling. -/
theorem normalForm (h : v.isClean = true) : v.normal.Respells v where
  clean := isClean_of_isStandard _ (isStandard_normal v h)
  source := h
  normal := normal_of_isStandard _ (isStandard_normal v h)

theorem symm (h : doc.Respells v) : v.Respells doc := ⟨h.source, h.clean, h.normal.symm⟩

/-- A value without parts has one spelling. -/
theorem eq_of_noParts (h : doc.Respells v) (harray : ∀ items, v ≠ .array items)
    (hobject : ∀ fields, v ≠ .object fields) : doc = v := by
  have hv : v.normal = v := by
    cases v with
    | array items => exact absurd rfl (harray items)
    | object fields => exact absurd rfl (hobject fields)
    | _ => rfl
  have hnormal := h.normal.trans hv
  cases doc with
  | array items => exact absurd hnormal.symm (harray _)
  | object fields => exact absurd hnormal.symm (hobject _)
  | _ => exact hnormal

theorem eq_string {s : String} (h : doc.Respells (.string s)) : doc = .string s :=
  h.eq_of_noParts (by simp) (by simp)

theorem eq_null (h : doc.Respells .null) : doc = .null := h.eq_of_noParts (by simp) (by simp)

/-- Only null is a spelling of null. -/
theorem ne_null (h : doc.Respells v) (hv : v ≠ .null) : doc ≠ .null := by
  rintro rfl
  exact hv h.symm.eq_null

/-- The spellings of an array are arrays, item by item. -/
theorem of_array (h : doc.Respells (.array items)) :
    ∃ items', doc = .array items' ∧ List.Forall₂ Respells items' items := by
  have hnormal := h.normal
  cases doc with
  | array items' =>
    refine ⟨items', rfl, ?_⟩
    have heq : items'.map Json.normal = items.map Json.normal := by
      rw [← normalItems_eq, ← normalItems_eq]
      exact Json.array.inj hnormal
    have hclean := isClean_array.1 h.clean
    have hsource := isClean_array.1 h.source
    clear h hnormal
    induction items' generalizing items with
    | nil =>
      rw [List.map_nil, eq_comm, List.map_eq_nil_iff] at heq
      subst heq
      exact .nil
    | cons item' rest' ih =>
      cases items with
      | nil => cases heq
      | cons item rest =>
        obtain ⟨hitem, hrest⟩ := List.cons.inj heq
        rw [List.forall_mem_cons] at hclean hsource
        exact .cons ⟨hclean.1, hsource.1, hitem⟩ (ih hrest hclean.2 hsource.2)
  | _ => cases hnormal

/-- The spellings of an object are objects. -/
theorem of_object (h : doc.Respells (.object fields)) :
    ∃ fields', doc = .object fields' ∧ (object fields').Respells (.object fields) := by
  have hnormal := h.normal
  cases doc with
  | object fields' => exact ⟨fields', rfl, h⟩
  | _ => cases hnormal

/-- Under each key they have the same, up to its spelling. -/
theorem lookup_normal (h : (object fields').Respells (.object fields)) (key : String) :
    (fields'.lookup key).map Json.normal = (fields.lookup key).map Json.normal := by
  have hfind := congrArg (Entries.find? key) (Json.object.inj h.normal)
  rw [find?_normalFields (isClean_object.1 h.clean).1,
    find?_normalFields (isClean_object.1 h.source).1] at hfind
  simpa [Entries.find?] using hfind

theorem field (h : (object fields').Respells (.object fields)) (key : String)
    (hv : fields.lookup key = some v) :
    ∃ v', fields'.lookup key = some v' ∧ v'.Respells v := by
  have hkey := h.lookup_normal key
  rw [hv, Option.map_some, Option.map_eq_some_iff] at hkey
  obtain ⟨v', hv', hnormal⟩ := hkey
  refine ⟨v', hv', ?_, ?_, hnormal⟩
  · exact (isClean_object.1 h.clean).2 _ (mem_of_lookup hv')
  · exact (isClean_object.1 h.source).2 _ (mem_of_lookup hv)

theorem no_field (h : (object fields').Respells (.object fields)) (key : String)
    (hnone : fields.lookup key = none) : fields'.lookup key = none := by
  have hkey := h.lookup_normal key
  rwa [hnone, Option.map_none, Option.map_eq_none_iff] at hkey

/-- The spellings of an object with one field have that one. -/
theorem of_singleton (h : doc.Respells (.object [(key, v)])) :
    ∃ v', doc = .object [(key, v')] ∧ v'.Respells v := by
  obtain ⟨fields', rfl, hfields⟩ := h.of_object
  have hkey : ∀ f ∈ fields', f.1 = key := by
    intro f hf
    by_contra hne
    have hnone : [(key, v)].lookup f.1 = none := by
      rw [List.lookup_cons, beq_false_of_ne hne]
      rfl
    have hsome := lookup_of_mem (isClean_object.1 h.clean).1 hf
    rw [hfields.no_field f.1 hnone] at hsome
    cases hsome
  obtain ⟨v', hv', hrespells⟩ := hfields.field key (List.lookup_cons_self ..)
  match fields', hkey with
  | [], _ => cases hv'
  | [(k, w)], hkey =>
    obtain rfl : k = key := hkey _ (List.mem_cons_self ..)
    obtain rfl : w = v' := by simpa using hv'
    exact ⟨w, rfl, hrespells⟩
  | f :: g :: rest, hkey =>
    -- the key would stand twice
    have hnodup := (isClean_object.1 h.clean).1
    have hf := hkey f (by simp)
    have hg := hkey g (by simp)
    simp [hf, hg] at hnodup

/-- Without the fields under one key, they are spellings of each other still. -/
theorem filter_ne (h : (object fields').Respells (.object fields)) (key : String) :
    (object (fields'.filter fun f => f.1 != key)).Respells
      (.object (fields.filter fun f => f.1 != key)) := by
  have hclean : ∀ {fields}, (object fields).isClean = true →
      (object (fields.filter fun f => f.1 != key)).isClean = true := by
    intro fields h
    obtain ⟨hnodup, hvalues⟩ := isClean_object.1 h
    refine isClean_object.2 ⟨hnodup.sublist (List.filter_sublist.map _), fun f hf => ?_⟩
    exact hvalues f (List.mem_of_mem_filter hf)
  refine ⟨hclean h.clean, hclean h.source, congrArg object ?_⟩
  refine Entries.eq_of_find? (ascending_normalFields .nil) (ascending_normalFields .nil) fun k => ?_
  rw [find?_normalFields (isClean_object.1 (hclean h.clean)).1,
    find?_normalFields (isClean_object.1 (hclean h.source)).1, lookup_filter_ne, lookup_filter_ne]
  by_cases hk : k = key
  · rw [if_pos hk, if_pos hk]
  · rw [if_neg hk, if_neg hk, h.lookup_normal]

end Respells

end Json

end Notebook
