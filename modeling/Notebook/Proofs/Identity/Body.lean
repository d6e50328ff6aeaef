/-
  Notebook.Proofs.Identity.Body — what a content digest is made from.

  With pinning or without, a content digest is the digest of a source, of the digests of modules,
  and of what is written beside each name: a field of its own, or the digest of a unit.  Without
  collisions the digest tells all of these.  What the digests of modules tell in turn depends on
  pinning and is said elsewhere.

  Main results:
    * `Entry.field_injective` — the field beside a name tells what was written there,
    * `Body.digest_injective` — a content digest tells what it is made from,
    * `Body.digest_ne_recursionDigest` — and never stands for a unit inside itself.
-/
import Notebook.Proofs.Identity.Content

namespace Notebook

/-- Fields of one tag end where the fields of another tag begin. -/
theorem Field.append_injective_of_tags {tag : String} {fs fs' gs gs' : List Field}
    (hfs : ∀ f ∈ fs, f.tag = tag) (hfs' : ∀ f ∈ fs', f.tag = tag)
    (hgs : ∀ g ∈ gs.head?, g.tag ≠ tag) (hgs' : ∀ g ∈ gs'.head?, g.tag ≠ tag)
    (h : fs ++ gs = fs' ++ gs') : fs = fs' ∧ gs = gs' := by
  refine append_injective_of_boundary (p := fun f => f.tag == tag) ?_ ?_ ?_ ?_ h
  · exact fun f hf => beq_iff_eq.2 (hfs f hf)
  · exact fun f hf => beq_iff_eq.2 (hfs' f hf)
  · exact fun g hg => beq_eq_false_iff_ne.2 (hgs g hg)
  · exact fun g hg => beq_eq_false_iff_ne.2 (hgs' g hg)

/-! ## §1. What is written beside a name. -/

/-- What is written beside a name: something that is no unit, or the digest of a unit. -/
inductive Entry where
  | plain (field : Field)
  | unit (d : Digest)

/-- The field of what is written. -/
def Entry.field : Entry → Field
  | .plain f => f
  | .unit d => .ofDigest "unit" d

/-- The fields of names, each with what is written beside it. -/
def entryFields (entries : List (String × Entry)) : List Field :=
  entries.flatMap fun e => [.ofText "var" e.1, e.2.field]

variable [HashFunction]

namespace Entry

/-- It can be told from a unit, and from what follows it. -/
def IsRegular : Entry → Prop
  | .plain f => f.IsRegular contentHashed ∧ f.tag ≠ "unit"
  | .unit d => ∃ message, d = .ofMessage message

theorem field_regular {e : Entry} (h : e.IsRegular) : e.field.IsRegular contentHashed := by
  cases e with
  | plain f => exact h.1
  | unit d =>
    obtain ⟨message, rfl⟩ := h
    exact Field.isRegular_ofDigest (by decide) (by decide) message

/-- The field beside a name tells what was written there. -/
theorem field_injective {a b : Entry} (ha : a.IsRegular) (hb : b.IsRegular)
    (h : a.field = b.field) : a = b := by
  cases a with
  | plain f =>
    cases b with
    | plain g => exact congrArg Entry.plain h
    | unit e => exact absurd (congrArg Field.tag h) ha.2
  | unit d =>
    cases b with
    | plain g => exact absurd (congrArg Field.tag h).symm hb.2
    | unit e => rw [Field.ofDigest_injective h]

end Entry

omit [HashFunction] in
/-- The fields of names begin with a name. -/
theorem head_entryFields (entries : List (String × Entry)) :
    ∀ f ∈ (entryFields entries).head?, f.tag ≠ "module" := by
  intro f hf
  cases entries with
  | nil => exact absurd hf (Option.not_mem_none f)
  | cons e rest =>
    obtain rfl := Option.some.inj hf
    exact (by decide : "var" ≠ "module")

/-- The fields of names tell the names and what was written beside them. -/
theorem entryFields_injective {es es' : List (String × Entry)} (hes : ∀ e ∈ es, e.2.IsRegular)
    (hes' : ∀ e ∈ es', e.2.IsRegular) (h : entryFields es = entryFields es') : es = es' := by
  refine flatMap_injective_of_delimited (fun _ _ => List.cons_ne_nil _ _) ?_ hes hes' h
  intro e e' later later' he he' h
  -- a name, then what is written beside it, and then the other names
  obtain ⟨hname, htail⟩ := List.cons.inj h
  obtain ⟨hfield, hlater⟩ := List.cons.inj htail
  exact ⟨Prod.ext (Field.ofText_injective hname) (Entry.field_injective he he' hfield), hlater⟩

/-! ## §2. Bodies and their digests. -/

/-- What a content digest is made from. -/
structure Body where
  source : String
  modules : List Digest
  /-- The names, in order, with what is written beside them. -/
  entries : List (String × Entry)

namespace Body

omit [HashFunction] in
/-- The fields of a content. -/
def fields (b : Body) : List Field :=
  .ofText "source" b.source :: b.modules.map (.ofDigest "module") ++ entryFields b.entries

def digest (b : Body) : Digest := .ofFields "content" b.fields

/-- Everything in it can be told from what follows it. -/
structure IsRegular (b : Body) : Prop where
  source : IsShort b.source
  modules : ∀ d ∈ b.modules, ∃ message, d = .ofMessage message
  entries : ∀ e ∈ b.entries, IsShort e.1 ∧ e.2.IsRegular

theorem IsRegular.fields {b : Body} (hb : b.IsRegular) :
    ∀ f ∈ b.fields, f.IsRegular contentHashed := by
  intro f hf
  rcases List.mem_append.1 hf with hf | hf
  · rcases List.mem_cons.1 hf with rfl | hf
    · exact Field.isRegular_of_short (by decide) (by decide) hb.source
    · obtain ⟨d, hd, rfl⟩ := List.mem_map.1 hf
      obtain ⟨message, rfl⟩ := hb.modules d hd
      exact Field.isRegular_ofDigest (by decide) (by decide) _
  · obtain ⟨e, he, hmem⟩ := List.mem_flatMap.1 hf
    rcases List.mem_pair.1 hmem with rfl | rfl
    · exact Field.isRegular_of_short (by decide) (by decide) (hb.entries e he).1
    · exact Entry.field_regular (hb.entries e he).2

/-- **A content digest tells what it is made from.** -/
theorem digest_injective (hash : HashFunction.CollisionFree) {b b' : Body} (hb : b.IsRegular)
    (hb' : b'.IsRegular) (h : b.digest = b'.digest) : b = b' := by
  have hfields : b.fields = b'.fields := Digest.ofFields_injective hash hb.fields hb'.fields h
  obtain ⟨hsource, hrest⟩ := List.cons.inj hfields
  have htag : ∀ modules : List Digest, ∀ f ∈ modules.map (Field.ofDigest "module"),
      f.tag = "module" := by
    intro modules f hf
    obtain ⟨d, -, rfl⟩ := List.mem_map.1 hf
    rfl
  -- the modules end where the first name begins
  obtain ⟨hmodules, hentries⟩ := Field.append_injective_of_tags (htag _) (htag _)
    (head_entryFields _) (head_entryFields _) hrest
  have hsourceEq := Field.ofText_injective hsource
  have hmodulesEq := List.map_injective_iff.2 (fun _ _ => Field.ofDigest_injective) hmodules
  have hentriesEq := entryFields_injective (fun e he => (hb.entries e he).2)
    (fun e he => (hb'.entries e he).2) hentries
  cases b; cases b'
  simp_all only

/-- It is not what a unit counts as inside itself. -/
theorem digest_ne_recursionDigest (hash : HashFunction.CollisionFree) (b : Body)
    (identity : Digest) : b.digest ≠ recursionDigest identity := by
  intro h
  have hmessage := congrArg List.head? (hash.injective _ _ h)
  -- a frame begins with a small number, the length of a tag
  have hframe : (frame "content" b.fields).head? = some (UInt8.ofNat (utf8 "domain").length) := by
    simp [frame, Field.bytes, framed, Field.ofText, lengthPrefix, List.range, List.range.loop]
  have htext : (utf8 ("recursive:" ++ identity.hex)).head? = (utf8 "recursive:").head? := by
    have happend : utf8 ("recursive:" ++ identity.hex) =
        utf8 "recursive:" ++ utf8 identity.hex := by simp [utf8]
    rw [happend, List.head?_append, (by decide : (utf8 "recursive:").head? = some 114)]
    rfl
  rw [hframe, htext] at hmessage
  exact absurd hmessage (by decide)

end Body

end Notebook
