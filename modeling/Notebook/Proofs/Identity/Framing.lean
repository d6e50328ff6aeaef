/-
  Notebook.Proofs.Identity.Framing — a framed message is taken apart in one way only.

  In a framed message every tag and all data stand behind their length, so a field ends where its
  lengths say, even if its data look like more fields.  A message therefore tells its domain and its
  fields: how many there are, in which order, and what stands in each of them, whether tags are
  repeated or not.  The fields of a unit and of a trace tell in turn what they were written from.

  Digests of one length cannot tell all messages apart.  So nothing is asked of the hash function
  here but that the two messages that are compared do not collide.

  Lengths are written with eight bytes, so this is said of tags and data shorter than 2^64 bytes.

  Main results:
    * `frame_eq_iff` — a message tells its domain and its fields,
    * `Digest.ofFields_eq_iff` — so does its digest, if there is no collision,
    * `WorkUnit.identityFields_eq_iff` / `WorkUnit.identity_eq_iff` — what is told of a unit,
    * `Trace.fields_eq_iff` / `Trace.digest_eq_iff` — what is told of a trace,
    * `frame_uniquelyDecodable` — messages, structural identities and digests of traces.
-/
import Notebook.Proofs.Identity.Coverage

namespace Notebook

variable {domain domain' : String} {fs gs : List Field}

/-! ## §1. Fields and messages. -/

/-- A field whose tag and data a length of eight bytes can count. -/
structure Field.IsShort (f : Field) : Prop where
  tag : Notebook.IsShort f.tag
  data : f.data.length < 2 ^ 64

instance (f : Field) : Decidable f.IsShort :=
  decidable_of_iff (IsShort f.tag ∧ f.data.length < 2 ^ 64)
    ⟨fun h => ⟨h.1, h.2⟩, fun h => ⟨h.tag, h.data⟩⟩

/-- A short field ends where it ends, whatever follows. -/
theorem Field.bytes_append_injective_of_short {f g : Field} (hf : f.IsShort) (hg : g.IsShort)
    {x y : List UInt8} (h : f.bytes ++ x = g.bytes ++ y) : f = g ∧ x = y := by
  unfold bytes at h
  rw [List.append_assoc, List.append_assoc] at h
  obtain ⟨htext, hrest⟩ := framed_append_injective hf.tag hg.tag h
  obtain ⟨hdata, hafter⟩ := framed_append_injective hf.data hg.data hrest
  have htag : f.tag = g.tag := utf8_injective htext
  cases f; cases g
  simp_all only [and_self]

/-- **A message tells its domain and its fields.** -/
theorem frame_eq_iff (hdomain : IsShort domain) (hdomain' : IsShort domain')
    (hfs : ∀ f ∈ fs, f.IsShort) (hgs : ∀ g ∈ gs, g.IsShort) :
    frame domain fs = frame domain' gs ↔ domain = domain' ∧ fs = gs := by
  constructor
  · intro h
    -- the domain is the first of the fields
    have htag : IsShort "domain" := by decide
    have hopening : ∀ {domain : String}, IsShort domain → (Field.ofText "domain" domain).IsShort :=
      fun hshort => ⟨htag, hshort⟩
    have hfields : Field.ofText "domain" domain :: fs = Field.ofText "domain" domain' :: gs :=
      flatMap_injective_of_delimited Field.bytes_append_ne_nil
        (fun hf hg => Field.bytes_append_injective_of_short hf hg)
        (List.forall_mem_cons.2 ⟨hopening hdomain, hfs⟩)
        (List.forall_mem_cons.2 ⟨hopening hdomain', hgs⟩) h
    obtain ⟨hfirst, hrest⟩ := List.cons.inj hfields
    exact ⟨Field.ofText_injective hfirst, hrest⟩
  · rintro ⟨rfl, rfl⟩
    rfl

/-! ## §2. Messages that do not collide. -/

section Collisions

variable [HashFunction]

/-- Different messages with one digest. -/
def HashFunction.Collide (m m' : List UInt8) : Prop :=
  m ≠ m' ∧ HashFunction.digest m = HashFunction.digest m'

/-- A hash function without collisions lets no two messages collide. -/
theorem HashFunction.CollisionFree.not_collide (hash : HashFunction.CollisionFree)
    (m m' : List UInt8) : ¬ HashFunction.Collide m m' := by
  rintro ⟨hne, hdigest⟩
  exact hne (hash.injective m m' hdigest)

/-- Messages that do not collide have one digest only if they are the same. -/
theorem Digest.ofMessage_eq_iff {m m' : List UInt8} (hapart : ¬ HashFunction.Collide m m') :
    Digest.ofMessage m = Digest.ofMessage m' ↔ m = m' := by
  constructor
  · intro h
    by_contra hne
    exact hapart ⟨hne, h⟩
  · exact congrArg Digest.ofMessage

/-- **So does the digest of a message that does not collide.** -/
theorem Digest.ofFields_eq_iff (hdomain : IsShort domain) (hdomain' : IsShort domain')
    (hfs : ∀ f ∈ fs, f.IsShort) (hgs : ∀ g ∈ gs, g.IsShort)
    (hapart : ¬ HashFunction.Collide (frame domain fs) (frame domain' gs)) :
    Digest.ofFields domain fs = Digest.ofFields domain' gs ↔ domain = domain' ∧ fs = gs := by
  rw [Digest.ofFields, Digest.ofFields, Digest.ofMessage_eq_iff hapart,
    frame_eq_iff hdomain hdomain' hfs hgs]

end Collisions

/-! ## §3. What the fields of units and traces tell. -/

/-- Fields of one tag tell the texts in them. -/
theorem Field.map_ofText_eq_iff {α : Type} {tag : String} {text : α → String} {as bs : List α} :
    as.map (fun a => Field.ofText tag (text a)) = bs.map (fun b => Field.ofText tag (text b)) ↔
      as.map text = bs.map text := by
  have hmap : ∀ as : List α,
      as.map (fun a => Field.ofText tag (text a)) = (as.map text).map (Field.ofText tag) := by
    intro as
    rw [List.map_map]
    rfl
  rw [hmap, hmap]
  exact (List.map_injective_iff.2 fun _ _ => Field.ofText_injective).eq_iff

/-- The message that the structural identity of a unit is the digest of. -/
def WorkUnit.message (u : WorkUnit) : List UInt8 := frame "unit" u.identityFields

/-- **What the fields of a unit tell:** its source up to layout, the set of its names, and its
modules as they are written. -/
theorem WorkUnit.identityFields_eq_iff {u v : WorkUnit} :
    u.identityFields = v.identityFields ↔ u.normalSource = v.normalSource ∧
      (∀ name, name ∈ u.freeVars ↔ name ∈ v.freeVars) ∧
      u.modules.map (·.toJson.text) = v.modules.map (·.toJson.text) := by
  constructor
  · intro h
    obtain ⟨hsource, hnames, hmodules⟩ := WorkUnit.written_eq_of_fields h
    refine ⟨hsource, fun name => ?_, hmodules⟩
    rw [OrderedSet.mem_iff, OrderedSet.mem_iff, hnames]
  · rintro ⟨hsource, hnames, hmodules⟩
    have hset : u.freeVars = v.freeVars := OrderedSet.ext_has hnames
    unfold WorkUnit.identityFields
    rw [hsource, hset, Field.map_ofText_eq_iff.2 hmodules]

/-- **What a structural identity tells**, if the messages of the units do not collide. -/
theorem WorkUnit.identity_eq_iff [HashFunction] {u v : WorkUnit}
    (hu : ∀ f ∈ u.identityFields, f.IsShort) (hv : ∀ f ∈ v.identityFields, f.IsShort)
    (hapart : ¬ HashFunction.Collide u.message v.message) :
    u.identity = v.identity ↔ u.normalSource = v.normalSource ∧
      (∀ name, name ∈ u.freeVars ↔ name ∈ v.freeVars) ∧
      u.modules.map (·.toJson.text) = v.modules.map (·.toJson.text) := by
  have hdomain : IsShort "unit" := by decide
  rw [WorkUnit.identity, WorkUnit.identity, Digest.ofFields_eq_iff hdomain hdomain hu hv hapart,
    and_iff_right rfl, WorkUnit.identityFields_eq_iff]

/-- The fields that the digest of a trace is made from. -/
def Trace.fields (t : Trace) : List Field := t.map fun op => Field.ofText "op" op.toJson.text

/-- The message that it is the digest of. -/
def Trace.message (t : Trace) : List UInt8 := frame "trace" t.fields

/-- **What the fields of a trace tell:** its operations as they are written. -/
theorem Trace.fields_eq_iff {s t : Trace} :
    s.fields = t.fields ↔ s.map (·.toJson.text) = t.map (·.toJson.text) :=
  Field.map_ofText_eq_iff

/-- **What the digest of a trace tells**, if the messages of the traces do not collide. -/
theorem Trace.digest_eq_iff [HashFunction] {s t : Trace} (hs : ∀ f ∈ s.fields, f.IsShort)
    (ht : ∀ f ∈ t.fields, f.IsShort) (hapart : ¬ HashFunction.Collide s.message t.message) :
    s.digest = t.digest ↔ s.map (·.toJson.text) = t.map (·.toJson.text) := by
  have hdomain : IsShort "trace" := by decide
  have hdigest : ∀ t : Trace, t.digest = .ofFields "trace" t.fields := fun _ => rfl
  rw [hdigest, hdigest, Digest.ofFields_eq_iff hdomain hdomain hs ht hapart, and_iff_right rfl,
    Trace.fields_eq_iff]

/-! ## §4. One message, one meaning. -/

/-- **Messages are uniquely decodable.**  A message tells its domain and its fields.  So units whose
messages do not collide have one structural identity if, and only if, they have one source up to
layout, the same names, and modules that are written alike; and traces whose messages do not collide
have one digest if, and only if, their operations are written alike. -/
theorem frame_uniquelyDecodable [HashFunction] :
    (∀ (domain domain' : String) (fs gs : List Field), IsShort domain → IsShort domain' →
        (∀ f ∈ fs, f.IsShort) → (∀ g ∈ gs, g.IsShort) →
          (frame domain fs = frame domain' gs ↔ domain = domain' ∧ fs = gs)) ∧
      (∀ u v : WorkUnit, (∀ f ∈ u.identityFields, f.IsShort) → (∀ f ∈ v.identityFields, f.IsShort) →
        ¬ HashFunction.Collide u.message v.message →
          (u.identity = v.identity ↔ u.normalSource = v.normalSource ∧
            (∀ name, name ∈ u.freeVars ↔ name ∈ v.freeVars) ∧
            u.modules.map (·.toJson.text) = v.modules.map (·.toJson.text))) ∧
      (∀ s t : Trace, (∀ f ∈ s.fields, f.IsShort) → (∀ f ∈ t.fields, f.IsShort) →
        ¬ HashFunction.Collide s.message t.message →
          (s.digest = t.digest ↔ s.map (·.toJson.text) = t.map (·.toJson.text))) := by
  refine ⟨?_, ?_, ?_⟩
  · intro domain domain' fs gs hdomain hdomain' hfs hgs
    exact frame_eq_iff hdomain hdomain' hfs hgs
  · intro u v hu hv hapart
    exact WorkUnit.identity_eq_iff hu hv hapart
  · intro s t hs ht hapart
    exact Trace.digest_eq_iff hs ht hapart

/-! ## §5. Messages that look alike. -/

/-- A field with data that are the bytes of a field of a unit. -/
def nestedField : Field := ⟨"var", (Field.ofText "var" "xs").bytes⟩

/-- A unit that closes over one name. -/
def totalUnit : WorkUnit :=
  { name := "total", source := "sum(xs) \r\n\r\n", freeVars := .ofList ["xs"] }

/-- The same under another name, with the same source up to layout. -/
def sumUnit : WorkUnit := { totalUnit with name := "sum", source := "sum(xs)" }

/-- The same with another name to close over. -/
def shadowedUnit : WorkUnit := { totalUnit with freeVars := .ofList ["sum", "xs"] }

/-- A value is read. -/
def readTrace : Trace := [.read "xs" .zero]

/-- It is read twice. -/
def rereadTrace : Trace := [.read "xs" .zero, .read "xs" .zero]

/-- A field inside the data of another one is not taken for a field, a unit is known by more than
its source, and a trace by how often something was done. -/
theorem lookalikes_toldApart :
    let _ := HashFunction.spelled
    (∀ m m', ¬ HashFunction.Collide m m') ∧ (∀ f ∈ [nestedField], f.IsShort) ∧
      frame "unit" [nestedField] ≠ frame "unit" [⟨"var", []⟩, .ofText "var" "xs"] ∧
      totalUnit.identity = sumUnit.identity ∧ totalUnit.identity ≠ shadowedUnit.identity ∧
      readTrace.digest ≠ rereadTrace.digest := by
  intro _
  have hapart := HashFunction.spelled_collisionFree.not_collide
  obtain ⟨hframe, hunit, htrace⟩ := frame_uniquelyDecodable
  have htotal : ∀ f ∈ totalUnit.identityFields, f.IsShort := by decide +kernel
  refine ⟨hapart, by decide +kernel, ?_, ?_, ?_, ?_⟩
  · rw [ne_eq, hframe _ _ _ _ (by decide) (by decide) (by decide +kernel) (by decide +kernel)]
    rintro ⟨-, hfields⟩
    exact absurd (congrArg List.length hfields) (by decide)
  · rw [hunit _ _ htotal (by decide +kernel) (hapart _ _)]
    exact ⟨by decide +kernel, fun _ => Iff.rfl, rfl⟩
  · rw [ne_eq, hunit _ _ htotal (by decide +kernel) (hapart _ _)]
    rintro ⟨-, hnames, -⟩
    exact absurd ((hnames "sum").2 (by decide +kernel)) (by decide +kernel)
  · rw [ne_eq, htrace _ _ (by decide +kernel) (by decide +kernel) (hapart _ _)]
    intro htexts
    exact absurd (congrArg List.length htexts) (by decide)

end Notebook
