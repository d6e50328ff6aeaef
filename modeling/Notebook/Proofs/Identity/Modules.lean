/-
  Notebook.Proofs.Identity.Modules — what is told of modules, pinned or written down.

  The written form of a module, which goes into structural identities, tells the module with all
  that it imports.  The digest of a pinned module tells less: of the modules of one name that a unit
  imports anywhere, only the first one is opened, and the imports of the others are passed over.
  So a module counts with its version or origin exactly when each module on the way to it is opened
  (`Examined`).

  Main results:
    * `ModuleRef.text_injective` — the written form of a module tells the module,
    * `pinnedDigest_injective` — the digest of a pinned module tells its name, its version or origin
      and the digests of the imports that count,
    * `moduleDigests_repinAt` — a new version anywhere in import trees changes the digests exactly
      when the module there is examined.
-/
import Notebook.Proofs.Identity.Search

namespace Notebook

/-! ## §1. The written form of a module. -/

namespace Json

/-- Fields of one key with values in standard form: the values are equal, and so is what follows. -/
theorem field_append_injective {key : String} {v w : Json} {rest rest' : List (String × Json)}
    {s t : List Char} (hv : v.isStandard = true) (hw : w.isStandard = true)
    (h : afterCommas (fieldTexts ((key, v) :: rest)) ++ '\x7d' :: s =
      afterCommas (fieldTexts ((key, w) :: rest')) ++ '\x7d' :: t) :
    v = w ∧ afterCommas (fieldTexts rest) ++ '\x7d' :: s =
      afterCommas (fieldTexts rest') ++ '\x7d' :: t := by
  have hcolon : ":".toList = [':'] := rfl
  simp only [fieldTexts, afterCommas_cons, String.toList_append, hcolon, List.cons_append,
    List.append_assoc, List.nil_append] at h
  obtain ⟨-, hvalue⟩ := quote_append_injective (List.cons.inj h).2
  exact text_append_injective v w hv hw (ends_afterCommas _ (by decide) _)
    (ends_afterCommas _ (by decide) _) (List.cons.inj hvalue).2

end Json

/-- It begins with a brace. -/
theorem ModuleRef.text_cons (m : ModuleRef) : ∃ rest, m.toJson.text.toList = '\x7b' :: rest := by
  obtain ⟨name, localName, version, origin, imports⟩ := m
  exact ⟨_, by rw [ModuleRef.toJson, Json.toList_object_cons]⟩

open Json in
mutual

/-- The written form of a module ends where it ends. -/
theorem ModuleRef.text_append_injective : (m m' : ModuleRef) → ∀ {s t : List Char},
    m.toJson.text.toList ++ s = m'.toJson.text.toList ++ t → m = m' ∧ s = t
  | ⟨name, localName, version, origin, imports⟩,
      ⟨name', localName', version', origin', imports'⟩ => by
    intro h
    have hcolon : ":".toList = [':'] := rfl
    have hstandard := ofOption_isStandard
    simp only [ModuleRef.toJson, toList_object_cons, List.cons_append, List.append_assoc,
      List.nil_append] at h
    have hname := List.append_cancel_left (List.cons.inj h).2
    obtain ⟨rfl, hfields⟩ := quote_append_injective (List.cons.inj hname).2
    -- the alias, the version and the origin, each of them a text or nothing
    obtain ⟨hlocalName, hfields⟩ := field_append_injective (hstandard _) (hstandard _) hfields
    obtain ⟨hversion, hfields⟩ := field_append_injective (hstandard _) (hstandard _) hfields
    obtain ⟨horigin, hfields⟩ := field_append_injective (hstandard _) (hstandard _) hfields
    simp only [fieldTexts, afterCommas_cons, String.toList_append, hcolon, List.cons_append,
      List.append_assoc, List.nil_append] at hfields
    have himports := List.append_cancel_left (List.cons.inj hfields).2
    obtain ⟨rfl, hrest⟩ :=
      ModuleRef.texts_append_injective imports imports' (List.cons.inj himports).2
    rw [ofOption_injective hlocalName, ofOption_injective hversion, ofOption_injective horigin]
    exact ⟨rfl, (List.cons.inj hrest).2⟩

/-- So does the array of the written forms of modules. -/
theorem ModuleRef.texts_append_injective : (ms ms' : List ModuleRef) → {s t : List Char} →
    (Json.array (ModuleRef.listToJson ms)).text.toList ++ s =
      (Json.array (ModuleRef.listToJson ms')).text.toList ++ t → ms = ms' ∧ s = t
  | [], [], s, t, h => ⟨rfl, List.append_cancel_left h⟩
  | [], m' :: rest', s, t, h => by
    -- a module begins with a brace, and an empty array ends instead
    obtain ⟨text, htext⟩ := m'.text_cons
    simp [ModuleRef.listToJson, toList_array_nil, toList_array_cons, htext] at h
  | m :: rest, [], s, t, h => by
    obtain ⟨text, htext⟩ := m.text_cons
    simp [ModuleRef.listToJson, toList_array_nil, toList_array_cons, htext] at h
  | m :: rest, m' :: rest', s, t, h => by
    simp only [ModuleRef.listToJson, toList_array_cons, List.cons_append, List.append_assoc,
      List.nil_append] at h
    obtain ⟨rfl, hrest⟩ := ModuleRef.text_append_injective m m' (List.cons.inj h).2
    obtain ⟨rfl, hend⟩ := ModuleRef.rest_append_injective rest rest' hrest
    exact ⟨rfl, hend⟩

/-- So do the written forms of further modules. -/
theorem ModuleRef.rest_append_injective : (ms ms' : List ModuleRef) → {s t : List Char} →
    afterCommas (itemTexts (ModuleRef.listToJson ms)) ++ ']' :: s =
      afterCommas (itemTexts (ModuleRef.listToJson ms')) ++ ']' :: t → ms = ms' ∧ s = t
  | [], [], _, _, h => ⟨rfl, (List.cons.inj h).2⟩
  | [], _ :: _, _, _, h => absurd (List.cons.inj h).1 (by decide)
  | _ :: _, [], _, _, h => absurd (List.cons.inj h).1 (by decide)
  | m :: rest, m' :: rest', s, t, h => by
    simp only [ModuleRef.listToJson, itemTexts, afterCommas_cons, List.cons_append,
      List.append_assoc] at h
    obtain ⟨rfl, hrest⟩ := ModuleRef.text_append_injective m m' (List.cons.inj h).2
    obtain ⟨rfl, hend⟩ := ModuleRef.rest_append_injective rest rest' hrest
    exact ⟨rfl, hend⟩

end

/-- The written form of a module tells the module. -/
theorem ModuleRef.text_injective {m m' : ModuleRef} (h : m.toJson.text = m'.toJson.text) :
    m = m' :=
  (ModuleRef.text_append_injective m m' (s := []) (t := []) (by rw [h])).1

/-! ## §2. What is written inside a short text is short. -/

/-- The bytes of a text are those of its characters. -/
theorem length_utf8 (a : String) : (utf8 a).length = (a.toList.map Char.utf8Size).sum := by
  have hsize : ∀ cs : List Char,
      (String.ofList cs).utf8ByteSize = (cs.map Char.utf8Size).sum := by
    intro cs
    induction cs with
    | nil => rfl
    | cons c rest ih =>
      rw [String.ofList_cons, String.utf8ByteSize_append, String.utf8ByteSize_singleton, ih]
      rfl
  rw [← hsize, String.ofList_toList]
  simp [utf8]

/-- A character does not get shorter by being escaped. -/
theorem Json.utf8Size_le_escape (c : Char) :
    c.utf8Size ≤ ((Json.escape c).map Char.utf8Size).sum := by
  unfold Json.escape
  split
  case h_8 =>
    split
    · next hcontrol =>
      have hone : c.utf8Size = 1 := Char.utf8Size_eq_one_iff.2 (by
        rw [UInt32.le_iff_toNat_le]
        exact le_trans (Nat.le_of_lt hcontrol) (by decide))
      have hslash : '\\'.utf8Size = 1 := rfl
      rw [hone, List.map_cons, List.sum_cons, hslash]
      exact Nat.le_add_right _ _
    · simp
  all_goals decide

/-- A text does not get shorter by being quoted. -/
theorem length_utf8_le_quote (a : String) : (utf8 a).length ≤ (utf8 (Json.quote a)).length := by
  have hescaped : ∀ cs : List Char, (cs.map Char.utf8Size).sum ≤
      ((cs.flatMap Json.escape).map Char.utf8Size).sum := by
    intro cs
    induction cs with
    | nil => exact le_refl _
    | cons c rest ih =>
      rw [List.flatMap_cons, List.map_append, List.sum_append, List.map_cons, List.sum_cons]
      exact Nat.add_le_add (Json.utf8Size_le_escape c) ih
  rw [length_utf8, length_utf8, Json.toList_quote]
  have := hescaped a.toList
  simp only [List.map_cons, List.map_append, List.sum_cons, List.sum_append]
  omega

/-- A module that is written down among others is no longer than all of them. -/
theorem ModuleRef.length_le_afterCommas {i : ModuleRef} {ms : List ModuleRef} (hi : i ∈ ms) :
    (utf8 i.toJson.text).length ≤ ((Json.afterCommas
      (Json.itemTexts (ModuleRef.listToJson ms))).map Char.utf8Size).sum := by
  induction ms with
  | nil => cases hi
  | cons m rest ih =>
    rw [ModuleRef.listToJson, Json.itemTexts, Json.afterCommas_cons, List.map_cons, List.map_append,
      List.sum_cons, List.sum_append]
    rcases List.mem_cons.1 hi with rfl | hi
    · rw [length_utf8]
      omega
    · have := ih hi
      omega

/-- The parts of a module are no longer than the module written down. -/
theorem ModuleRef.parts_le (m : ModuleRef) :
    (utf8 m.name).length ≤ (utf8 m.toJson.text).length ∧
    (∀ pin, m.pin? = some pin → (utf8 pin).length ≤ (utf8 m.toJson.text).length) ∧
    ∀ i ∈ m.imports, (utf8 i.toJson.text).length ≤ (utf8 m.toJson.text).length := by
  obtain ⟨name, localName, version, origin, imports⟩ := m
  have hcolon : ":".toList = [':'] := rfl
  have hquote : ∀ a : String,
      (utf8 a).length ≤ ((Json.string a).text.toList.map Char.utf8Size).sum :=
    fun a => length_utf8 (Json.quote a) ▸ length_utf8_le_quote a
  rw [length_utf8 (ModuleRef.toJson _).text]
  simp only [ModuleRef.toJson, Json.toList_object_cons, Json.fieldTexts, Json.afterCommas_cons,
    String.toList_append, hcolon, List.map_cons, List.map_append, List.sum_cons, List.sum_append]
  refine ⟨?_, fun pin hpin => ?_, fun i hi => ?_⟩
  · have hname := hquote name
    omega
  · have hpinned := hquote pin
    cases version with
    | some v =>
      obtain rfl : v = pin := Option.some.inj hpin
      simp only [Json.ofOption]
      omega
    | none =>
      obtain rfl : origin = some pin := hpin
      simp only [Json.ofOption]
      omega
  · obtain ⟨first, rest, rfl⟩ := List.exists_cons_of_ne_nil (List.ne_nil_of_mem hi)
    rw [ModuleRef.listToJson, Json.toList_array_cons]
    simp only [List.map_cons, List.map_append, List.sum_cons, List.sum_append]
    rcases List.mem_cons.1 hi with rfl | hi
    · rw [length_utf8]
      omega
    · have := ModuleRef.length_le_afterCommas hi
      omega

/-- Modules that are short when they are written down. -/
def AreShort (ms : List ModuleRef) : Prop := ∀ m ∈ ms, IsShort m.toJson.text

theorem AreShort.imports {ms : List ModuleRef} (h : AreShort ms) {m : ModuleRef} (hm : m ∈ ms) :
    AreShort m.imports :=
  fun i hi => lt_of_le_of_lt (m.parts_le.2.2 i hi) (h m hm)

/-! ## §3. The digest of a pinned module. -/

variable [HashFunction]

/-- The digest of a pinned module, by its name, its version or origin and the digests of the imports
that count. -/
def pinnedDigest (name pin : String) (imports : List Digest) : Digest :=
  .ofFields "module"
    (.ofText "name" name :: .ofText "identity" pin :: imports.map (.ofDigest "import"))

/-- What is found of a pinned module: one whose name was seen counts without imports. -/
theorem moduleDigest_eq_ok {m : ModuleRef} {seen seen' : List String} {d : Digest}
    (h : moduleDigest true m seen = .ok (d, seen')) : ∃ pin, m.pin? = some pin ∧
      ((m.name ∈ seen ∧ d = pinnedDigest m.name pin [] ∧ seen' = seen) ∨
        (m.name ∉ seen ∧ ∃ imports, d = pinnedDigest m.name pin imports ∧
          moduleDigests true m.imports (m.name :: seen) = .ok (imports, seen'))) := by
  obtain ⟨name, localName, version, origin, imports⟩ := m
  unfold moduleDigest at h
  simp only [if_true] at h
  split at h
  · cases h
  case h_2 pin hpin =>
    refine ⟨pin, hpin, ?_⟩
    by_cases hseen : name ∈ seen
    · simp only [List.contains_iff_mem.2 hseen, if_true] at h
      obtain ⟨hd, hseen'⟩ := Prod.mk.inj (Except.ok.inj h)
      exact .inl ⟨hseen, hd.symm, hseen'.symm⟩
    · simp only [List.contains_iff_mem.not.2 hseen, if_false, Bool.false_eq_true] at h
      split at h
      · cases h
      case h_2 digests after himports =>
        obtain ⟨hd, rfl⟩ := Prod.mk.inj (Except.ok.inj h)
        exact .inr ⟨hseen, digests, hd.symm, himports⟩

/-- **The digest of a pinned module tells its name, its version or origin and the digests of the
imports that count.** -/
theorem pinnedDigest_injective (hash : HashFunction.CollisionFree) {name name' pin pin' : String}
    {imports imports' : List Digest} (hname : IsShort name) (hname' : IsShort name')
    (hpin : IsShort pin) (hpin' : IsShort pin')
    (himports : ∀ d ∈ imports, ∃ message, d = .ofMessage message)
    (himports' : ∀ d ∈ imports', ∃ message, d = .ofMessage message)
    (h : pinnedDigest name pin imports = pinnedDigest name' pin' imports') :
    name = name' ∧ pin = pin' ∧ imports = imports' := by
  have hregular : ∀ {name pin : String} {imports : List Digest}, IsShort name → IsShort pin →
      (∀ d ∈ imports, ∃ message, d = .ofMessage message) →
      ∀ f ∈ Field.ofText "name" name :: .ofText "identity" pin :: imports.map (.ofDigest "import"),
        f.IsRegular ["import"] := by
    intro name pin imports hname hpin himports f hf
    rcases List.mem_cons.1 hf with rfl | hf
    · exact Field.isRegular_of_short (by decide) (by decide) hname
    rcases List.mem_cons.1 hf with rfl | hf
    · exact Field.isRegular_of_short (by decide) (by decide) hpin
    obtain ⟨d, hd, rfl⟩ := List.mem_map.1 hf
    obtain ⟨message, rfl⟩ := himports d hd
    exact Field.isRegular_ofDigest (by decide) (by decide) message
  have hfields := Digest.ofFields_injective hash (hregular hname hpin himports)
    (hregular hname' hpin' himports') h
  obtain ⟨hnames, hfields⟩ := List.cons.inj hfields
  obtain ⟨hpins, hfields⟩ := List.cons.inj hfields
  exact ⟨Field.ofText_injective hnames, Field.ofText_injective hpins,
    List.map_injective_iff.2 (fun _ _ => Field.ofDigest_injective) hfields⟩

/-- The same of modules that are short when they are written down. -/
theorem pinnedDigest_told (hash : HashFunction.CollisionFree) {m m' : ModuleRef}
    {pin pin' : String} (hm : IsShort m.toJson.text) (hm' : IsShort m'.toJson.text)
    (hpin : m.pin? = some pin) (hpin' : m'.pin? = some pin') {imports imports' : List Digest}
    (himports : ∀ d ∈ imports, ∃ message, d = .ofMessage message)
    (himports' : ∀ d ∈ imports', ∃ message, d = .ofMessage message)
    (h : pinnedDigest m.name pin imports = pinnedDigest m'.name pin' imports') :
    pin = pin' ∧ imports = imports' :=
  (pinnedDigest_injective hash (lt_of_le_of_lt m.parts_le.1 hm) (lt_of_le_of_lt m'.parts_le.1 hm')
    (lt_of_le_of_lt (m.parts_le.2.1 pin hpin) hm) (lt_of_le_of_lt (m'.parts_le.2.1 pin' hpin') hm')
    himports himports' h).2

/-! ## §4. Places in import trees. -/

/-- The module with another version, or with another origin when it has no version. -/
def ModuleRef.repin (m : ModuleRef) (pin : String) : ModuleRef :=
  match m.version with
  | some _ => { m with version := some pin }
  | none => { m with origin := some pin }

/-- The module at a place: the first number chooses among the modules, the others among imports. -/
def importAt? : List ModuleRef → List Nat → Option ModuleRef
  | _, [] => none
  | ms, [i] => ms[i]?
  | ms, i :: j :: rest => ms[i]?.bind fun m => importAt? m.imports (j :: rest)

/-- The modules with another version at a place, or another origin, and all else as it is. -/
def repinAt (pin : String) : List ModuleRef → List Nat → List ModuleRef
  | ms, [] => ms
  | ms, [i] => ms.modify i (·.repin pin)
  | ms, i :: j :: rest =>
    ms.modify i fun m => { m with imports := repinAt pin m.imports (j :: rest) }

mutual

/-- The names of the modules that have been opened after a module, which is opened only when its
name has not been opened before. -/
def ModuleRef.openedAfter : ModuleRef → (seen : List String) → List String
  | ⟨name, _, _, _, imports⟩, seen =>
    if seen.contains name then seen else openedAfterAll imports (name :: seen)

/-- The same after several modules. -/
def openedAfterAll : List ModuleRef → (seen : List String) → List String
  | [], seen => seen
  | m :: rest, seen => openedAfterAll rest (m.openedAfter seen)

end

/-- Whether the module at a place is examined: every module on the way to it is opened, so none has
the name of a module that has been opened before. -/
def Examined : List ModuleRef → (seen : List String) → List Nat → Prop
  | _, _, [] => False
  | ms, _, [i] => i < ms.length
  | ms, seen, i :: j :: rest => ∃ m, ms[i]? = some m ∧
      m.name ∉ openedAfterAll (ms.take i) seen ∧
      Examined m.imports (m.name :: openedAfterAll (ms.take i) seen) (j :: rest)


/-! ## §5. A new version at a place. -/

section Places

variable {ms : List ModuleRef} {m : ModuleRef} {pin : String} {path : List Nat}
  {seen seen' : List String}

omit [HashFunction] in
theorem ModuleRef.pin?_repin (m : ModuleRef) (pin : String) : (m.repin pin).pin? = some pin := by
  unfold ModuleRef.repin ModuleRef.pin?
  cases hversion : m.version with
  | some version => rfl
  | none => simp

omit [HashFunction] in
/-- The module at the place is the one with the new version. -/
theorem importAt?_repinAt (pin : String) (ms : List ModuleRef) (path : List Nat) :
    importAt? (repinAt pin ms path) path = (importAt? ms path).map (·.repin pin) := by
  fun_induction repinAt pin ms path with
  | case1 => rfl
  | case2 ms i => simp [importAt?]
  | case3 ms i j rest ih =>
    cases hget : ms[i]? with
    | none => simp [importAt?, hget]
    | some m => simpa [importAt?, hget] using ih m

omit [HashFunction] in
/-- Modules of another version are other modules. -/
theorem repinAt_ne (hm : importAt? ms path = some m) (hpin : m.pin? ≠ some pin) :
    repinAt pin ms path ≠ ms := by
  intro heq
  have hat := importAt?_repinAt pin ms path
  rw [heq, hm, Option.map_some, Option.some.injEq] at hat
  exact hpin (hat ▸ m.pin?_repin pin)

omit [HashFunction] in
theorem openedAfterAll_modify {f : ModuleRef → ModuleRef}
    (hf : ∀ m seen, (f m).openedAfter seen = m.openedAfter seen) (ms : List ModuleRef) (i : Nat)
    (seen : List String) : openedAfterAll (ms.modify i f) seen = openedAfterAll ms seen := by
  induction ms generalizing i seen with
  | nil => cases i <;> rfl
  | cons m rest ih =>
    cases i with
    | zero => rw [List.modify_zero_cons, openedAfterAll, openedAfterAll, hf]
    | succ i => rw [List.modify_succ_cons, openedAfterAll, openedAfterAll, ih]

omit [HashFunction] in
/-- Which modules are opened does not depend on versions and origins. -/
theorem openedAfterAll_repinAt (pin : String) (ms : List ModuleRef) (path : List Nat)
    (seen : List String) : openedAfterAll (repinAt pin ms path) seen = openedAfterAll ms seen := by
  fun_induction repinAt pin ms path generalizing seen with
  | case1 => rfl
  | case2 ms i =>
    refine openedAfterAll_modify (fun m seen => ?_) ms i seen
    obtain ⟨name, localName, version, origin, imports⟩ := m
    cases version <;> simp [ModuleRef.repin, ModuleRef.openedAfter]
  | case3 ms i j rest ih =>
    refine openedAfterAll_modify (fun m seen => ?_) ms i seen
    have himports := ih m
    obtain ⟨name, localName, version, origin, imports⟩ := m
    simp only [ModuleRef.openedAfter, himports]

mutual

/-- A module whose digest is found has been opened as far as its name allows. -/
theorem moduleDigest_openedAfter : (m : ModuleRef) → ∀ {seen seen' : List String} {d : Digest},
    moduleDigest true m seen = .ok (d, seen') → seen' = m.openedAfter seen
  | ⟨name, localName, version, origin, imports⟩, seen, seen', d => by
    intro h
    obtain ⟨pin, -, ⟨hseen, -, rfl⟩ | ⟨hseen, digests, -, himports⟩⟩ := moduleDigest_eq_ok h
    · simp [ModuleRef.openedAfter, hseen]
    · have hinner := moduleDigests_openedAfterAll imports himports
      simpa [ModuleRef.openedAfter, hseen] using hinner

/-- So have modules whose digests are found. -/
theorem moduleDigests_openedAfterAll : (ms : List ModuleRef) → ∀ {seen seen' : List String}
    {ds : List Digest}, moduleDigests true ms seen = .ok (ds, seen') →
      seen' = openedAfterAll ms seen
  | [], seen, seen', ds => by
    intro h
    unfold moduleDigests at h
    obtain ⟨-, rfl⟩ := Prod.mk.inj (Except.ok.inj h)
    rfl
  | m :: rest, seen, seen', ds => by
    intro h
    obtain ⟨d, seen₁, ds', -, hfirst, hrest⟩ := Environment.moduleDigests_cons_eq_ok h
    rw [openedAfterAll, ← moduleDigest_openedAfter m hfirst]
    exact moduleDigests_openedAfterAll rest hrest

end

/-- Modules of which one is changed: their digests are the same exactly when the digests of this one
are, as it is found after those before it, if the change opens the same modules. -/
theorem moduleDigests_modify {f : ModuleRef → ModuleRef}
    (hf : ∀ m seen, (f m).openedAfter seen = m.openedAfter seen) {i : Nat} (hm : ms[i]? = some m)
    {ds ds' : List Digest} {after after' : List String}
    (h : moduleDigests true ms seen = .ok (ds, after))
    (h' : moduleDigests true (ms.modify i f) seen = .ok (ds', after')) :
    ∃ d d' mid mid', moduleDigest true m (openedAfterAll (ms.take i) seen) = .ok (d, mid) ∧
      moduleDigest true (f m) (openedAfterAll (ms.take i) seen) = .ok (d', mid') ∧
      (ds = ds' ↔ d = d') := by
  induction ms generalizing i seen ds ds' with
  | nil => cases hm
  | cons first rest ih =>
    obtain ⟨d, seen₁, dsRest, rfl, hfirst, hrest⟩ := Environment.moduleDigests_cons_eq_ok h
    cases i with
    | zero =>
      obtain rfl : first = m := Option.some.inj hm
      rw [List.modify_zero_cons] at h'
      obtain ⟨d', seen₂, dsRest', rfl, hfirst', hrest'⟩ := Environment.moduleDigests_cons_eq_ok h'
      -- the same modules have been opened after both, so the others have the same digests
      have hseen : seen₁ = seen₂ := by
        rw [moduleDigest_openedAfter _ hfirst, moduleDigest_openedAfter _ hfirst', hf]
      subst hseen
      obtain ⟨rfl, -⟩ := Prod.mk.inj (Except.ok.inj (hrest.symm.trans hrest'))
      exact ⟨d, d', seen₁, seen₁, hfirst, hfirst', by simp⟩
    | succ i =>
      rw [List.modify_succ_cons] at h'
      obtain ⟨d', seen₂, dsRest', rfl, hfirst', hrest'⟩ := Environment.moduleDigests_cons_eq_ok h'
      obtain ⟨rfl, rfl⟩ := Prod.mk.inj (Except.ok.inj (hfirst.symm.trans hfirst'))
      obtain ⟨e, e', mid, mid', he, he', hiff⟩ := ih hm hrest hrest'
      rw [moduleDigest_openedAfter _ hfirst] at he he'
      exact ⟨e, e', mid, mid', he, he', by simp [hiff]⟩

/-- A module whose version changes gets another digest, whatever has been opened before it. -/
theorem moduleDigest_repin_ne (hash : HashFunction.CollisionFree) (hm : IsShort m.toJson.text)
    (hm' : IsShort (m.repin pin).toJson.text) (hpin : m.pin? ≠ some pin) {d d' : Digest}
    {after after' : List String} (h : moduleDigest true m seen = .ok (d, after))
    (h' : moduleDigest true (m.repin pin) seen' = .ok (d', after')) : d ≠ d' := by
  have hpinned : ∀ {m : ModuleRef} {seen after : List String} {d : Digest},
      moduleDigest true m seen = .ok (d, after) → ∃ pin imports, m.pin? = some pin ∧
        d = pinnedDigest m.name pin imports ∧ ∀ e ∈ imports, ∃ message, e = .ofMessage message := by
    intro m seen after d h
    obtain ⟨pin, hpin, ⟨-, hd, -⟩ | ⟨-, imports, hd, himports⟩⟩ := moduleDigest_eq_ok h
    · exact ⟨pin, [], hpin, hd, fun e he => absurd he List.not_mem_nil⟩
    · exact ⟨pin, imports, hpin, hd, Environment.moduleDigests_isDigest himports⟩
  obtain ⟨old, imports, hold, rfl, himports⟩ := hpinned h
  obtain ⟨new, imports', hnew, rfl, himports'⟩ := hpinned h'
  obtain rfl : pin = new := Option.some.inj ((m.pin?_repin pin).symm.trans hnew)
  intro heq
  exact hpin (hold.trans (congrArg some
    (pinnedDigest_told hash hm hm' hold hnew himports himports' heq).1))

/-- **A new version at a place changes the digests of modules exactly when the module there is
examined.** -/
theorem moduleDigests_repinAt (hash : HashFunction.CollisionFree) (hshort : AreShort ms)
    (hshort' : AreShort (repinAt pin ms path)) (hm : importAt? ms path = some m)
    (hpin : m.pin? ≠ some pin) {ds ds' : List Digest} {after after' : List String}
    (h : moduleDigests true ms seen = .ok (ds, after))
    (h' : moduleDigests true (repinAt pin ms path) seen = .ok (ds', after')) :
    ds = ds' ↔ ¬ Examined ms seen path := by
  fun_induction repinAt pin ms path generalizing seen ds ds' after after' with
  | case1 => cases hm
  | case2 ms i =>
    -- the module itself is among those that are hashed
    have hget : ms[i]? = some m := hm
    have hmem' : m.repin pin ∈ ms.modify i (·.repin pin) :=
      List.mem_of_getElem? (i := i) (by rw [List.getElem?_modify_eq, hget]; rfl)
    have hopened : ∀ m seen, (ModuleRef.repin m pin).openedAfter seen = m.openedAfter seen :=
      fun m seen => openedAfterAll_repinAt pin [m] [0] seen
    obtain ⟨d, d', mid, mid', hd, hd', hiff⟩ := moduleDigests_modify hopened hget h h'
    have hne : d ≠ d' := moduleDigest_repin_ne hash (hshort m (List.mem_of_getElem? hget))
      (hshort' _ hmem') hpin hd hd'
    have hexamined : Examined ms seen [i] := (List.getElem?_eq_some_iff.1 hget).1
    simp only [hiff, hne, hexamined, not_true_eq_false]
  | case3 ms i j rest ih =>
    obtain ⟨x, hget, hinner⟩ := Option.bind_eq_some_iff.1 hm
    have hmem' : { x with imports := repinAt pin x.imports (j :: rest) } ∈
        ms.modify i fun m => { m with imports := repinAt pin m.imports (j :: rest) } :=
      List.mem_of_getElem? (i := i) (by rw [List.getElem?_modify_eq, hget]; rfl)
    have hx := hshort x (List.mem_of_getElem? hget)
    have hx' := hshort' _ hmem'
    have hopened : ∀ (m : ModuleRef) (seen : List String),
        ModuleRef.openedAfter { m with imports := repinAt pin m.imports (j :: rest) } seen =
          m.openedAfter seen :=
      fun m seen => openedAfterAll_repinAt pin [m] (0 :: j :: rest) seen
    obtain ⟨d, d', mid, mid', hd, hd', hiff⟩ := moduleDigests_modify hopened hget h h'
    rw [hiff]
    obtain ⟨p, hp, hopen⟩ := moduleDigest_eq_ok hd
    obtain ⟨p', hp', hopen'⟩ := moduleDigest_eq_ok hd'
    obtain rfl : p = p' := Option.some.inj (hp.symm.trans hp')
    rcases hopen with ⟨hseen, rfl, -⟩ | ⟨hseen, imports, rfl, himports⟩
    · -- a module of its name has been opened before it, so its imports are passed over
      rcases hopen' with ⟨-, rfl, -⟩ | ⟨hnot, -⟩
      · simp only [Examined, hget, Option.some.injEq, true_iff]
        rintro ⟨x', rfl, hnot, -⟩
        exact hnot hseen
      · exact absurd hseen hnot
    · rcases hopen' with ⟨hin, -⟩ | ⟨-, imports', rfl, himports'⟩
      · exact absurd hin hseen
      have hsame : pinnedDigest x.name p imports = pinnedDigest x.name p imports' ↔
          imports = imports' :=
        ⟨fun heq => (pinnedDigest_told hash hx hx' hp hp'
          (Environment.moduleDigests_isDigest himports)
          (Environment.moduleDigests_isDigest himports') heq).2, fun heq => by rw [heq]⟩
      rw [hsame, ih x (hshort.imports (List.mem_of_getElem? hget)) (hshort'.imports hmem') hinner
        himports himports']
      simp only [Examined, hget, Option.some.injEq, exists_eq_left', hseen, not_false_eq_true,
        true_and]

end Places

end Notebook
