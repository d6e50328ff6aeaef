/-
  Notebook.Proofs.Wire.Readers — what each way to put readers together reads back.

  A reader reads a value back when it gives it for every spelling of the written form, whatever the
  order of the fields.  There is one lemma for each way to put readers together: wrapping, lists,
  tables, records with their fields, and variants with their tags.

  Main results:
    * `ReadsAs.list`, `ReadsAs.table`, `ReadsAs.record` — lists, tables and records are read back,
    * `tagged?_respelled`, `adjacent?_respelled` — the variant is the one that was written, and the
      rest is a spelling of what was written with it.
-/
import Notebook.Proofs.Json.Spellings
import Notebook.Proofs.Wire.Outputs

namespace Notebook

/-! ## §1. Plain values are read back. -/

namespace Wire

open Json

variable {α β : Type} {read : Json → Option α} {v : Json} {a : α}

/-- The reader gives `a` for the clean document `v` and for every other spelling of it. -/
structure ReadsAs (read : Json → Option α) (v : Json) (a : α) : Prop where
  clean : v.isClean = true
  reads : ∀ doc, doc.Respells v → read doc = some a

namespace ReadsAs

theorem text (s : String) : ReadsAs text? (.string s) s where
  clean := rfl
  reads := fun doc h => by
    rw [h.eq_string]
    rfl

theorem flag (b : Bool) : ReadsAs flag? (.bool b) b where
  clean := rfl
  reads := fun doc h => by
    rw [h.eq_of_noParts (by simp) (by simp)]
    rfl

/-- A natural number of 64 bits. -/
theorem natural {n : Nat} (hn : n < 2 ^ 64) : ReadsAs natural? (.nat n) n where
  clean := rfl
  reads := fun doc h => by
    rw [h.eq_of_noParts (by simp [nat]) (by simp [nat])]
    exact if_pos hn

/-- A value in standard form. -/
theorem value (hv : v.isStandard = true) : ReadsAs value? v v where
  clean := isClean_of_isStandard v hv
  reads := fun doc h => by
    rw [value?, if_pos (isReadable_of_isClean doc h.clean), h.normal, normal_of_isStandard v hv]

/-- What is read may be wrapped. -/
theorem map (h : ReadsAs read v a) (f : α → β) : ReadsAs (fun doc => (read doc).map f) v (f a) where
  clean := h.clean
  reads := fun doc hdoc => by rw [h.reads doc hdoc, Option.map_some]

/-- What is read may be read further. -/
theorem bind {next : α → Option β} {b : β} (h : ReadsAs read v a) (hnext : next a = some b) :
    ReadsAs (fun doc => (read doc).bind next) v b where
  clean := h.clean
  reads := fun doc hdoc => by rw [h.reads doc hdoc, Option.bind_some, hnext]

/-- The written form itself is read back, and so is its normal form. -/
theorem self (h : ReadsAs read v a) : read v = some a := h.reads v (.refl h.clean)

theorem normal (h : ReadsAs read v a) : read v.normal = some a :=
  h.reads v.normal (.normalForm h.clean)

/-- Null is none. -/
theorem null : ReadsAs (nullable? read) .null none where
  clean := rfl
  reads := fun doc h => by
    rw [h.eq_null]
    rfl

/-- What is written otherwise than null is not none. -/
theorem nonNull (h : ReadsAs read v a) (hv : v ≠ .null) : ReadsAs (nullable? read) v (some a) where
  clean := h.clean
  reads := fun doc hdoc => by
    have hnot := hdoc.ne_null hv
    have hread := congrArg (Option.map some) (h.reads doc hdoc)
    cases doc with
    | null => exact absurd rfl hnot
    | _ => exact hread

/-- A text or nothing. -/
theorem optionText (o : Option String) : ReadsAs (nullable? text?) (.ofOption .string o) o := by
  cases o with
  | none => exact null
  | some s => exact (text s).nonNull (by simp)

/-! ## §2. Lists and tables are read back. -/

/-- A reader of items that reads each spelling of them reads the items of a list. -/
theorem mapM_respelled {write : α → Json} {docs : List Json} {as : List α}
    (hdocs : List.Forall₂ Respells docs (as.map write))
    (h : ∀ a ∈ as, ∀ doc ∈ docs, doc.Respells (write a) → read doc = some a) :
    docs.mapM read = some as := by
  induction docs generalizing as with
  | nil =>
    cases as with
    | nil => rfl
    | cons a rest => cases hdocs
  | cons doc docs ih =>
    cases as with
    | nil => cases hdocs
    | cons a rest =>
      obtain ⟨hdoc, hrest⟩ := List.forall₂_cons.1 hdocs
      have hfirst := h a (List.mem_cons_self ..) doc (List.mem_cons_self ..) hdoc
      have hlater := ih hrest fun b hb doc' hdoc' =>
        h b (List.mem_cons_of_mem _ hb) doc' (List.mem_cons_of_mem _ hdoc')
      rw [List.mapM_cons, hfirst, hlater]
      rfl

theorem list {write : α → Json} {as : List α} (h : ∀ a ∈ as, ReadsAs read (write a) a) :
    ReadsAs (list? read) (.array (as.map write)) as where
  clean := isClean_array.2 fun v hv => by
    obtain ⟨a, ha, rfl⟩ := List.mem_map.1 hv
    exact (h a ha).clean
  reads := fun doc hdoc => by
    obtain ⟨docs, rfl, hdocs⟩ := hdoc.of_array
    exact mapM_respelled hdocs fun a ha doc _ hdoc => (h a ha).reads doc hdoc

theorem texts (names : List String) : ReadsAs (list? text?) (.strings names) names :=
  list fun s _ => text s

theorem names (s : OrderedSet String) : ReadsAs names? (.strings s.toList) s := by
  have h := (texts s.toList).map OrderedSet.ofList
  rw [OrderedSet.ofList_toList] at h
  exact h

/-- Thirty-two bytes. -/
theorem digest {d : Digest} (hd : d.bytes.length = Digest.width) : ReadsAs digest? d.toJson d := by
  have hbyte : ∀ b : UInt8, ReadsAs byte? (.nat b.toNat) b := fun b => by
    have hlt := b.toNat_lt
    refine (natural (by omega)).bind ?_
    rw [if_pos hlt, UInt8.ofNat_toNat]
  have hbytes : ReadsAs (list? byte?) d.toJson d.bytes := list fun b _ => hbyte b
  exact hbytes.bind (if_pos hd)

end ReadsAs

/-- Entries that all agree with a table, whatever their order, make up the part of it that has their
keys. -/
theorem get?_ofList_of_agree {t : Table String α} {entries : List (String × α)}
    (h : ∀ e ∈ entries, t.get? e.1 = some e.2) (k : String) :
    (Table.ofList entries).get? k = if k ∈ entries.map Prod.fst then t.get? k else none := by
  have hfold : ∀ (entries : List (String × α)) (done : Table String α),
      (∀ e ∈ entries, t.get? e.1 = some e.2) →
      (entries.foldl (fun t e => t.insert e.1 e.2) done).get? k =
        if k ∈ entries.map Prod.fst then t.get? k else done.get? k := by
    intro entries
    induction entries with
    | nil => exact fun done _ => rfl
    | cons e rest ih =>
      intro done h
      obtain ⟨he, hrest⟩ := List.forall_mem_cons.1 h
      rw [List.foldl_cons, ih _ hrest, Table.get?_insert]
      by_cases hk : k = e.1
      · subst hk
        simp [he]
      · rw [if_neg hk]
        simp only [List.map_cons, List.mem_cons, hk, false_or]
  exact hfold entries .empty h

/-- The readers of fields of an object that agree with a table read entries that do. -/
theorem mapM_agree {t : Table String α} {fields : List (String × Json)}
    (h : ∀ f ∈ fields, ∃ a, read f.2 = some a ∧ t.get? f.1 = some a) :
    ∃ entries, fields.mapM (fun f => (read f.2).map fun a => (f.1, a)) = some entries ∧
      entries.map Prod.fst = fields.map Prod.fst ∧ ∀ e ∈ entries, t.get? e.1 = some e.2 := by
  induction fields with
  | nil => exact ⟨[], rfl, rfl, by simp⟩
  | cons f rest ih =>
    obtain ⟨⟨a, hread, hget⟩, hrest⟩ := List.forall_mem_cons.1 h
    obtain ⟨entries, hmapM, hkeys, hentries⟩ := ih hrest
    refine ⟨(f.1, a) :: entries, ?_, ?_, List.forall_mem_cons.2 ⟨hget, hentries⟩⟩
    · rw [List.mapM_cons, hread, hmapM]
      rfl
    · rw [List.map_cons, List.map_cons, hkeys]

theorem ReadsAs.table {write : α → Json} {t : Table String α}
    (h : ∀ k a, t.get? k = some a → ReadsAs read (write a) a) :
    ReadsAs (table? read) (.object (t.entries.map fun e => (e.1, write e.2))) t := by
  have hlookup : ∀ k,
      (t.entries.map fun e => (e.1, write e.2)).lookup k = (t.get? k).map write := by
    intro k
    rw [Table.get?, Entries.find?_eq_lookup]
    induction t.entries with
    | nil => rfl
    | cons e rest ih =>
      rw [List.map_cons, List.lookup_cons, List.lookup_cons]
      split
      · rfl
      · exact ih
  have hclean : (object (t.entries.map fun e => (e.1, write e.2))).isClean = true := by
    refine isClean_object.2 ⟨?_, fun f hf => ?_⟩
    · rw [List.map_map]
      exact nodup_of_ascending t.ascending
    · obtain ⟨e, he, rfl⟩ := List.mem_map.1 hf
      exact (h e.1 e.2 ((Table.get?_eq_some_iff _).2 he)).clean
  refine ⟨hclean, fun doc hdoc => ?_⟩
  obtain ⟨fields, rfl, hfields⟩ := hdoc.of_object
  have hagree : ∀ f ∈ fields, ∃ a, read f.2 = some a ∧ t.get? f.1 = some a := by
    intro f hf
    have hf' : fields.lookup f.1 = some f.2 := lookup_of_mem (isClean_object.1 hdoc.clean).1 hf
    obtain ⟨v, hv, hrespells⟩ := hfields.symm.field f.1 hf'
    rw [hlookup, Option.map_eq_some_iff] at hv
    obtain ⟨a, hget, rfl⟩ := hv
    exact ⟨a, (h f.1 a hget).reads f.2 hrespells.symm, hget⟩
  obtain ⟨entries, hmapM, hkeys, hentries⟩ := mapM_agree hagree
  show (fields.mapM fun f => (read f.2).map fun a => (f.1, a)).map Table.ofList = some t
  rw [hmapM, Option.map_some]
  refine congrArg some (Table.ext_get? fun k => ?_)
  rw [get?_ofList_of_agree hentries, hkeys]
  split
  · rfl
  · rename_i hk
    have hnone := hfields.symm.no_field k (lookup_eq_none_of_not_mem hk)
    rw [hlookup, Option.map_eq_none_iff] at hnone
    exact hnone.symm

/-! ## §3. Records. -/

variable {fields fields' : List (String × Json)} {positional : Bool}

theorem occurrences_le_one (hclean : (object fields).isClean = true) (key : String) :
    occurrences key fields ≤ 1 := by
  have hcount := List.nodup_iff_count_le_one.1 (isClean_object.1 hclean).1 key
  rw [List.count, List.countP_map] at hcount
  exact hcount

theorem occurrences_eq_one (hclean : (object fields).isClean = true) {key : String} {v : Json}
    (h : fields.lookup key = some v) : occurrences key fields = 1 := by
  refine Nat.le_antisymm (occurrences_le_one hclean key) (List.countP_pos_iff.2 ?_)
  exact ⟨_, mem_of_lookup h, by simp⟩

/-- A clean object is a record, whatever its known fields. -/
theorem record?_object (hclean : (object fields).isClean = true) (known : List String) :
    record? known (.object fields) = some ⟨fields, false⟩ := by
  refine if_pos (List.all_eq_true.2 fun key _ => ?_)
  exact decide_eq_true (occurrences_le_one hclean key)

/-- A record is read back when its fields are read back from every spelling of it. -/
theorem ReadsAs.record {known : List String} {body : Record → Option α}
    (hclean : (object fields).isClean = true)
    (h : ∀ fields', (object fields').Respells (.object fields) → body ⟨fields', false⟩ = some a) :
    ReadsAs (fun doc => (record? known doc).bind body) (.object fields) a where
  clean := hclean
  reads := fun doc hdoc => by
    obtain ⟨fields', rfl, hfields⟩ := hdoc.of_object
    rw [record?_object hdoc.clean, Option.bind_some, h fields' hfields]

/-- A field that is there. -/
theorem required_respelled (hfields : (object fields').Respells (.object fields)) (key : String)
    (hfield : fields.lookup key = some v) (h : ReadsAs read v a) :
    Record.required ⟨fields', positional⟩ key read = some a := by
  obtain ⟨v', hv', hrespells⟩ := hfields.field key hfield
  show (fields'.lookup key).bind read = some a
  rw [hv', Option.bind_some, h.reads v' hrespells]

theorem defaulted_respelled (hfields : (object fields').Respells (.object fields)) (key : String)
    (hfield : fields.lookup key = some v) (h : ReadsAs read v a) (default : α) :
    Record.defaulted ⟨fields', positional⟩ key default read = some a := by
  obtain ⟨v', hv', hrespells⟩ := hfields.field key hfield
  unfold Record.defaulted
  rw [hv']
  exact h.reads v' hrespells

theorem optional_respelled {o : Option α} (hfields : (object fields').Respells (.object fields))
    (key : String) (hfield : fields.lookup key = some v) (h : ReadsAs (nullable? read) v o) :
    Record.optional ⟨fields', positional⟩ key read = some o := by
  obtain ⟨v', hv', hrespells⟩ := hfields.field key hfield
  unfold Record.optional
  rw [hv']
  exact h.reads v' hrespells

/-! ## §4. Variants. -/

/-- A variant with its tag beside its fields. -/
theorem tagged?_respelled {tag name : String} {variant? : Json → Option String} {doc : Json}
    (hdoc : doc.Respells (.object ((tag, .string name) :: fields)))
    (hvariant : variant? (.string name) = some name) :
    ∃ fields', tagged? tag variant? doc = some (name, .object fields') ∧
      (object fields').Respells (.object fields) := by
  obtain ⟨all, rfl, hall⟩ := hdoc.of_object
  obtain ⟨v', hv', hrespells⟩ := hall.field tag (List.lookup_cons_self ..)
  obtain rfl := hrespells.eq_string
  refine ⟨all.filter fun f => f.1 != tag, ?_, ?_⟩
  · unfold tagged?
    rw [isReadable_of_isClean _ hdoc.clean]
    dsimp only [Bool.not_true, Bool.false_eq_true, if_false]
    rw [if_pos (occurrences_eq_one hdoc.clean hv'), hv', Option.bind_some, hvariant,
      Option.map_some]
    rfl
  · -- the tag stands before the fields and nowhere among them
    have hnodup := (isClean_object.1 hdoc.source).1
    have hrest : ((tag, Json.string name) :: fields).filter (fun f => f.1 != tag) = fields := by
      rw [List.filter_cons_of_neg (by simp), List.filter_eq_self]
      intro f hf
      refine bne_iff_ne.2 fun heq => (List.nodup_cons.1 hnodup).1 ?_
      show tag ∈ fields.map Prod.fst
      exact heq ▸ List.mem_map_of_mem hf
    rw [← hrest]
    exact hall.filter_ne tag

/-- A variant with a tag and maybe a content. -/
theorem adjacent?_respelled (tag content : String) {name : String} {doc : Json}
    (hdoc : doc.Respells (.object fields)) (htag : fields.lookup tag = some (.string name)) :
    ∃ fields', adjacent? tag content doc = some (name, fields'.lookup content) ∧
      (object fields').Respells (.object fields) := by
  obtain ⟨fields', rfl, hfields⟩ := hdoc.of_object
  obtain ⟨v', hv', hrespells⟩ := hfields.field tag htag
  obtain rfl := hrespells.eq_string
  refine ⟨fields', ?_, hfields⟩
  have hreadable : (fields'.lookup content).all Json.isReadable = true := by
    cases hc : fields'.lookup content with
    | none => rfl
    | some c =>
      exact isReadable_of_isClean c ((isClean_object.1 hdoc.clean).2 _ (mem_of_lookup hc))
  unfold adjacent?
  dsimp only
  rw [if_pos ⟨occurrences_eq_one hdoc.clean hv', occurrences_le_one hdoc.clean content,
    .inr hreadable⟩, hv', Option.bind_some]
  rfl

/-- A variant with its tag beside its fields is read back when its fields are. -/
theorem ReadsAs.tagged (variant? : Json → Option String) {tag name : String}
    (hvariant : variant? (.string name) = some name)
    (hclean : (object ((tag, .string name) :: fields)).isClean = true)
    (h : ∀ doc fields', tagged? tag variant? doc = some (name, .object fields') →
      (object fields').Respells (.object fields) → read doc = some a) :
    ReadsAs read (.object ((tag, .string name) :: fields)) a where
  clean := hclean
  reads := fun doc hdoc => by
    obtain ⟨fields', htagged, hfields⟩ := tagged?_respelled hdoc hvariant
    exact h doc fields' htagged hfields

/-- A variant with a tag and a content is read back when its content is. -/
theorem ReadsAs.adjacent {tag content name : String} {c : Json} {readContent : Json → Option β}
    {b : β} {f : β → α} (hc : ReadsAs readContent c b) (hne : content ≠ tag)
    (h : ∀ doc c', c'.Respells c → adjacent? tag content doc = some (name, some c') →
      read doc = (readContent c').map f) :
    ReadsAs read (.object [(tag, .string name), (content, c)]) (f b) where
  clean := by simp [hc.clean, hne.symm]
  reads := fun doc hdoc => by
    have hcontent : [(tag, Json.string name), (content, c)].lookup content = some c := by
      rw [List.lookup_cons, beq_false_of_ne hne]
      exact List.lookup_cons_self ..
    obtain ⟨fields', hadjacent, hfields⟩ :=
      adjacent?_respelled tag content hdoc (List.lookup_cons_self ..)
    obtain ⟨c', hc', hrespells⟩ := hfields.field content hcontent
    rw [hc'] at hadjacent
    rw [h doc c' hrespells hadjacent, hc.reads c' hrespells, Option.map_some]

end Wire

end Notebook
