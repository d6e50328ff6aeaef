/-
  Notebook.Proofs.Identity.Content — what the content digest of a unit tells.

  A hash function without collisions tells messages apart.  A framed message can be taken apart into
  its fields again, so the digest of a unit that reads plain values only tells the normal source of
  the unit, the names it closes over, and the value of each name that is bound.

  Lengths are written with eight bytes, so this is said of texts that are shorter than 2^64 bytes.

  Main results:
    * `framed_append_injective` — bytes after their length end where they end,
    * `Digest.ofFields_injective` — the digest of tagged fields tells the fields,
    * `contentDigest_injective` — equal content digests come from equal sources and readings,
    * `identify_plain` — a unit that reads plain values is known by its content digest.
-/
import Notebook.Identity.Purity
import Notebook.Proofs.Graph.Edges
import Notebook.Proofs.Json.Texts

namespace Notebook

/-! ## §1. Hash functions without collisions. -/

/-- Different messages have different digests, and no digest begins with another one, as when all
digests have one length. -/
structure HashFunction.CollisionFree [HashFunction] : Prop where
  injective : ∀ m m' : List UInt8, HashFunction.digest m = HashFunction.digest m' → m = m'
  separate : ∀ m m' x y, (HashFunction.digest m).bytes ++ x = (HashFunction.digest m').bytes ++ y →
    HashFunction.digest m = HashFunction.digest m'

/-- Spells a message out: a one before each byte, and a zero at the end. -/
@[reducible] def HashFunction.spelled : HashFunction :=
  ⟨fun message => ⟨message.flatMap (fun byte => [1, byte]) ++ [0]⟩⟩

/-- Messages that are spelled out do not collide. -/
theorem HashFunction.spelled_collisionFree :
    let _ := HashFunction.spelled
    HashFunction.CollisionFree := by
  intro _
  have hspelled : ∀ m m' x y : List UInt8,
      (m.flatMap (fun byte => [1, byte]) ++ [0]) ++ x =
        (m'.flatMap (fun byte => [1, byte]) ++ [0]) ++ y → m = m' := by
    intro m
    induction m with
    | nil =>
      intro m' x y h
      cases m' with
      | nil => rfl
      | cons byte rest => simp at h
    | cons byte rest ih =>
      intro m' x y h
      cases m' with
      | nil => simp at h
      | cons byte' rest' =>
        simp only [List.flatMap_cons, List.cons_append, List.nil_append, List.cons.injEq,
          true_and] at h
        obtain ⟨rfl, h⟩ := h
        rw [ih rest' x y h]
  refine ⟨fun m m' h => ?_, fun m m' x y h => ?_⟩
  · have hbytes : m.flatMap (fun byte => [1, byte]) ++ [0] =
        m'.flatMap (fun byte => [1, byte]) ++ [0] := congrArg Digest.bytes h
    exact hspelled m m' [] [] (by rw [hbytes])
  · rw [hspelled m m' x y h]

theorem utf8_injective {a b : String} (h : utf8 a = utf8 b) : a = b := by
  refine String.toByteArray_inj.1 (ByteArray.ext ?_)
  exact Array.toList_inj.1 h

/-! ## §2. Framing. -/

/-- Words in a row can be taken apart again, if every word ends where it ends, whatever follows. -/
theorem flatMap_injective_of_delimited {α β : Type} {word : α → List β} {p : α → Prop}
    (hne : ∀ a x, word a ++ x ≠ [])
    (hends : ∀ {a b x y}, p a → p b → word a ++ x = word b ++ y → a = b ∧ x = y)
    {as bs : List α} (has : ∀ a ∈ as, p a) (hbs : ∀ b ∈ bs, p b)
    (h : as.flatMap word = bs.flatMap word) : as = bs := by
  induction as generalizing bs with
  | nil =>
    cases bs with
    | nil => rfl
    | cons b rest => exact absurd h.symm (hne b _)
  | cons a rest ih =>
    cases bs with
    | nil => exact absurd h (hne a _)
    | cons b rest' =>
      rw [List.flatMap_cons, List.flatMap_cons] at h
      obtain ⟨rfl, htail⟩ := hends (has a (List.mem_cons_self ..)) (hbs b (List.mem_cons_self ..)) h
      rw [ih (fun c hc => has c (List.mem_cons_of_mem _ hc))
        (fun c hc => hbs c (List.mem_cons_of_mem _ hc)) htail]

theorem length_lengthPrefix (n : Nat) : (lengthPrefix n).length = 8 := by simp [lengthPrefix]

/-- Eight bytes tell a length that fits into them. -/
theorem lengthPrefix_injective {n m : Nat} (hn : n < 2 ^ 64) (hm : m < 2 ^ 64)
    (h : lengthPrefix n = lengthPrefix m) : n = m := by
  have hbyte : ∀ i < 8, n / 256 ^ i % 256 = m / 256 ^ i % 256 := by
    intro i hi
    have hget := congrArg (fun l => (l[i]?).map UInt8.toNat) h
    simpa [lengthPrefix, hi, Nat.shiftRight_eq_div_pow, Nat.pow_mul] using hget
  -- eight digits to the base 256 make up the number
  have h0 := hbyte 0 (by omega)
  have h1 := hbyte 1 (by omega)
  have h2 := hbyte 2 (by omega)
  have h3 := hbyte 3 (by omega)
  have h4 := hbyte 4 (by omega)
  have h5 := hbyte 5 (by omega)
  have h6 := hbyte 6 (by omega)
  have h7 := hbyte 7 (by omega)
  norm_num at h0 h1 h2 h3 h4 h5 h6 h7 hn hm
  omega

/-- Bytes after their length end where they end, whatever follows. -/
theorem framed_append_injective {a b x y : List UInt8} (ha : a.length < 2 ^ 64)
    (hb : b.length < 2 ^ 64) (h : framed a ++ x = framed b ++ y) : a = b ∧ x = y := by
  unfold framed at h
  rw [List.append_assoc, List.append_assoc] at h
  obtain ⟨hlength, hrest⟩ := List.append_inj h (by simp [length_lengthPrefix])
  exact List.append_inj hrest (lengthPrefix_injective ha hb hlength)

/-- So does a digest, whose length need not be known. -/
theorem framed_digest_append_injective [HashFunction] (hash : HashFunction.CollisionFree)
    {m m' x y : List UInt8} (h : framed (Digest.ofMessage m).bytes ++ x =
      framed (Digest.ofMessage m').bytes ++ y) : m = m' ∧ x = y := by
  unfold framed at h
  rw [List.append_assoc, List.append_assoc] at h
  obtain ⟨-, hrest⟩ := List.append_inj h (by simp [length_lengthPrefix])
  have hdigest := hash.separate m m' x y hrest
  obtain rfl := hash.injective m m' hdigest
  exact ⟨rfl, List.append_cancel_left hrest⟩

/-- Texts that a length of eight bytes can count. -/
def IsShort (text : String) : Prop := (utf8 text).length < 2 ^ 64

instance (text : String) : Decidable (IsShort text) :=
  inferInstanceAs (Decidable ((utf8 text).length < 2 ^ 64))

namespace Field

theorem ofText_injective {tag a b : String} (h : ofText tag a = ofText tag b) : a = b :=
  utf8_injective (congrArg data h)

theorem ofDigest_injective {tag : String} {d e : Digest} (h : ofDigest tag d = ofDigest tag e) :
    d = e := by
  have hbytes : d.bytes = e.bytes := congrArg data h
  cases d; cases e; simp_all

/-- Bytes of a field are never empty. -/
theorem bytes_append_ne_nil (f : Field) (x : List UInt8) : f.bytes ++ x ≠ [] := by
  intro hnil
  have hlength := congrArg List.length hnil
  simp [Field.bytes, framed, length_lengthPrefix] at hlength

variable [HashFunction]

/-- Fields that can be told from what follows them: under each of the tags `hashed` stands a digest,
and under any other something short. -/
structure IsRegular (hashed : List String) (f : Field) : Prop where
  tag : IsShort f.tag
  digest : f.tag ∈ hashed → ∃ message, f.data = (Digest.ofMessage message).bytes
  short : f.tag ∉ hashed → f.data.length < 2 ^ 64

/-- Something short under a tag that is not for digests. -/
theorem isRegular_of_short {hashed : List String} {tag : String} {data : List UInt8}
    (htag : IsShort tag) (hhashed : tag ∉ hashed) (hdata : data.length < 2 ^ 64) :
    IsRegular hashed ⟨tag, data⟩ :=
  ⟨htag, fun h => absurd h hhashed, fun _ => hdata⟩

/-- A digest under a tag for digests. -/
theorem isRegular_ofDigest {hashed : List String} {tag : String} (htag : IsShort tag)
    (hhashed : tag ∈ hashed) (message : List UInt8) :
    (ofDigest tag (.ofMessage message)).IsRegular hashed :=
  ⟨htag, fun _ => ⟨message, rfl⟩, fun h => absurd hhashed h⟩

/-- A field ends where it ends. -/
theorem bytes_append_injective (hash : HashFunction.CollisionFree) {hashed : List String}
    {f g : Field} (hf : f.IsRegular hashed) (hg : g.IsRegular hashed) {x y : List UInt8}
    (h : f.bytes ++ x = g.bytes ++ y) : f = g ∧ x = y := by
  unfold Field.bytes at h
  rw [List.append_assoc, List.append_assoc] at h
  obtain ⟨htext, hrest⟩ := framed_append_injective hf.tag hg.tag h
  have htag : f.tag = g.tag := utf8_injective htext
  -- the tag says how the data are taken apart from what follows
  by_cases hhashed : f.tag ∈ hashed
  · obtain ⟨message, hmessage⟩ := hf.digest hhashed
    obtain ⟨message', hmessage'⟩ := hg.digest (htag ▸ hhashed)
    rw [hmessage, hmessage'] at hrest
    obtain ⟨rfl, hrest⟩ := framed_digest_append_injective hash hrest
    have hdata : f.data = g.data := hmessage.trans hmessage'.symm
    cases f; cases g; simp_all
  · obtain ⟨hdata, hrest⟩ :=
      framed_append_injective (hf.short hhashed) (hg.short (htag ▸ hhashed)) hrest
    cases f; cases g; simp_all

/-- Fields in a row can be taken apart again. -/
theorem flatMap_bytes_injective (hash : HashFunction.CollisionFree) {hashed : List String}
    {fs gs : List Field} (hfs : ∀ f ∈ fs, f.IsRegular hashed) (hgs : ∀ g ∈ gs, g.IsRegular hashed)
    (h : fs.flatMap Field.bytes = gs.flatMap Field.bytes) : fs = gs :=
  flatMap_injective_of_delimited bytes_append_ne_nil
    (fun hf hg => bytes_append_injective hash hf hg) hfs hgs h

end Field

variable [HashFunction]

/-- The digest of a domain and its fields tells the fields. -/
theorem Digest.ofFields_injective (hash : HashFunction.CollisionFree) {hashed : List String}
    {domain : String} {fs gs : List Field} (hfs : ∀ f ∈ fs, f.IsRegular hashed)
    (hgs : ∀ g ∈ gs, g.IsRegular hashed)
    (h : Digest.ofFields domain fs = Digest.ofFields domain gs) : fs = gs := by
  have hmessage := hash.injective _ _ h
  unfold frame at hmessage
  rw [List.flatMap_cons, List.flatMap_cons] at hmessage
  exact Field.flatMap_bytes_injective hash hfs hgs (List.append_cancel_left hmessage)

/-! ## §3. Content digests. -/

/-- The names that a unit closes over, in order, each with its value if it is bound. -/
abbrev Readings := List (String × Option Json)

omit [HashFunction] in
/-- Names are short and values in standard form. -/
def Readings.IsPlain (readings : Readings) : Prop :=
  ∀ e ∈ readings, IsShort e.1 ∧ ∀ v, e.2 = some v → v.isStandard = true

/-- The tags of content under which digests stand. -/
def contentHashed : List String := ["module", "value", "unit"]

/-- The field of what a name stands for. -/
def valueField : Option Json → Field
  | none => ⟨"unbound", []⟩
  | some v => .ofDigest "value" (.ofValue v)

/-- The fields of what is read. -/
def readingFields (readings : Readings) : List Field :=
  readings.flatMap fun e => [.ofText "var" e.1, valueField e.2]

/-- The content digest of a unit without modules, by its source and what it reads. -/
def contentDigest (source : String) (readings : Readings) : Digest :=
  .ofFields "content" (.ofText "source" source :: readingFields readings)

/-- The digest of a value tells the value. -/
theorem ofValue_injective (hash : HashFunction.CollisionFree) {v w : Json}
    (hv : v.isStandard = true) (hw : w.isStandard = true)
    (h : Digest.ofValue v = Digest.ofValue w) : v = w :=
  Json.text_injective hv hw (utf8_injective (hash.injective _ _ h))

/-- What a name stands for is told by its field. -/
theorem valueField_injective (hash : HashFunction.CollisionFree) {v w : Option Json}
    (hv : ∀ a, v = some a → a.isStandard = true) (hw : ∀ a, w = some a → a.isStandard = true)
    (h : valueField v = valueField w) : v = w := by
  cases v with
  | none =>
    cases w with
    | none => rfl
    -- the tags tell an unbound name from a bound one
    | some b => exact absurd (congrArg Field.tag h) (by decide : "unbound" ≠ "value")
  | some a =>
    cases w with
    | none => exact absurd (congrArg Field.tag h) (by decide : "value" ≠ "unbound")
    | some b => exact congrArg some (ofValue_injective hash (hv a rfl) (hw b rfl)
        (Field.ofDigest_injective h))

/-- A name and what it stands for are written in regular fields. -/
theorem readingFields_regular {r : Readings} (hr : r.IsPlain) :
    ∀ f ∈ readingFields r, f.IsRegular contentHashed := by
  intro f hf
  obtain ⟨e, he, hmem⟩ := List.mem_flatMap.1 hf
  rcases List.mem_pair.1 hmem with rfl | rfl
  · exact Field.isRegular_of_short (by decide) (by decide) (hr e he).1
  · cases e.2 with
    | none => exact Field.isRegular_of_short (by decide) (by decide) (by decide)
    | some v => exact Field.isRegular_ofDigest (by decide) (by decide) _

/-- The fields of what is read tell what is read. -/
theorem readingFields_injective (hash : HashFunction.CollisionFree) {r r' : Readings}
    (hr : r.IsPlain) (hr' : r'.IsPlain) (h : readingFields r = readingFields r') : r = r' := by
  refine flatMap_injective_of_delimited (fun _ _ => List.cons_ne_nil _ _) ?_ hr hr' h
  intro e e' later later' he he' h
  -- a name, then what it stands for, and then the rest of the readings
  obtain ⟨hname, htail⟩ := List.cons.inj h
  obtain ⟨hvalue, hlater⟩ := List.cons.inj htail
  exact ⟨Prod.ext (Field.ofText_injective hname) (valueField_injective hash he.2 he'.2 hvalue),
    hlater⟩

/-- Equal content digests come from equal sources and equal readings. -/
theorem contentDigest_injective (hash : HashFunction.CollisionFree) {source source' : String}
    {r r' : Readings} (hs : IsShort source) (hs' : IsShort source') (hr : r.IsPlain)
    (hr' : r'.IsPlain) (h : contentDigest source r = contentDigest source' r') :
    source = source' ∧ r = r' := by
  have hregular : ∀ {source : String} {r : Readings}, IsShort source → r.IsPlain →
      ∀ f ∈ Field.ofText "source" source :: readingFields r, f.IsRegular contentHashed := by
    intro source r hs hr f hf
    rcases List.mem_cons.1 hf with rfl | hf
    · exact Field.isRegular_of_short (by decide) (by decide) hs
    · exact readingFields_regular hr f hf
  have hfields := Digest.ofFields_injective hash (hregular hs hr) (hregular hs' hr') h
  obtain ⟨hsource, hreadings⟩ := List.cons.inj hfields
  exact ⟨Field.ofText_injective hsource, readingFields_injective hash hr hr' hreadings⟩

/-! ## §4. Units that read plain values. -/

/-- Whether a name is unbound or stands for a plain value. -/
def Environment.IsPlainAt (env : Environment) (name : String) : Prop :=
  env.bindings.get? name = none ∨ ∃ v, env.bindings.get? name = some (.value v)

/-- What is read of the names of a unit. -/
def Environment.readings (env : Environment) (names : List String) : Readings :=
  names.map fun name => (name, match env.bindings.get? name with
    | some (.value v) => some v
    | _ => none)

theorem contributions_plain (env : Environment) (pinned : Bool) (unit : String)
    (inner : WorkUnit → Findings → Except Error (Purity × Findings)) (names : List String)
    (found : Findings) (hplain : ∀ name ∈ names, env.IsPlainAt name) :
    contributions env pinned unit inner names found =
      .ok (.fields (readingFields (env.readings names)), found) := by
  induction names with
  | nil => rfl
  | cons name rest ih =>
    have hrest := ih fun a ha => hplain a (List.mem_cons_of_mem _ ha)
    unfold contributions
    rcases hplain name (List.mem_cons_self ..) with hnone | ⟨v, hvalue⟩
    · rw [hnone]
      dsimp only
      rw [hrest]
      simp [readingFields, Environment.readings, hnone, valueField]
    · rw [hvalue]
      dsimp only
      rw [hrest]
      simp [readingFields, Environment.readings, hvalue, valueField]

/-- A unit that has a content is known by it. -/
theorem identify_of_pure {env : Environment} {pinned : Bool} {u : WorkUnit} {d : Digest}
    (h : purity env pinned u = .ok (.pure d)) : identify env pinned u = .ok (.content d) := by
  unfold identify
  rw [h]

/-- A unit that reads plain values is known by its content digest. -/
theorem identify_plain (env : Environment) (pinned : Bool) {u : WorkUnit}
    (hmodules : u.modules = []) (hplain : ∀ name ∈ u.freeVars.toList, env.IsPlainAt name) :
    identify env pinned u =
      .ok (.content (contentDigest u.normalSource (env.readings u.freeVars.toList))) := by
  refine identify_of_pure ?_
  unfold purity Environment.maxOpen purityAt
  simp only [List.contains_nil, Bool.false_eq_true, if_false, List.lookup_nil, hmodules,
    moduleDigests, contributions_plain env pinned u.name _ _ _ hplain]
  rfl

end Notebook
