/-
  Notebook.Proofs.Identity.Coverage — what can be read off the content digest of a unit.

  A content digest is the digest of a source, of the names of modules, and of what each name stands
  for; where a name stands for a unit, by the digest of that unit in turn.  Without collisions a
  digest therefore covers certain names, whatever the environment: those of its content, and those
  that the digests inside it cover.

  A unit that is met inside itself counts by its structural identity only.  That does tell its
  outline: its normal source, its names and the names of its modules.  So two units that are hashed
  to one digest, be it in two environments, have one outline, and every name that the digest covers
  stands for the same in both.

  Main results:
    * `WorkUnit.outline_eq_of_identity` — a structural identity tells the outline,
    * `Content.digest_injective` — a content digest tells the content,
    * `Environment.Hashes.alike` — what a digest covers is resolved alike wherever it is reached,
    * `Environment.Hashes.reaches` — a digest covers only names that are reachable.
-/
import Notebook.Proofs.Identity.Body

namespace Notebook

/-! ## §1. Reachable names, and what they stand for. -/

/-- What of a unit goes into every digest of it. -/
structure Outline where
  source : String
  names : List String
  /-- The names of the modules. -/
  modules : List String
deriving DecidableEq

/-- The normal source of a unit, its names and the names of its modules. -/
def WorkUnit.outline (u : WorkUnit) : Outline :=
  ⟨u.normalSource, u.freeVars.toList, u.modules.map (·.name)⟩

/-- Names that are resolved alike: to nothing, to one value, to modules of one name, or to units of
one outline. -/
inductive Resolved.Alike : Option Resolved → Option Resolved → Prop
  | unbound : Alike none none
  | value (v : Json) : Alike (some (.value v)) (some (.value v))
  | module {m m' : ModuleRef} (hname : m.name = m'.name) :
      Alike (some (.module m)) (some (.module m'))
  | unit {u u' : WorkUnit} (houtline : u.outline = u'.outline) :
      Alike (some (.unit u)) (some (.unit u'))

/-- The names that a unit reaches: its own, and those that the units among them reach. -/
inductive Environment.Reaches (env : Environment) : WorkUnit → String → Prop
  | own {u : WorkUnit} {name : String} (hown : name ∈ u.freeVars.toList) : Reaches env u name
  | through {u w : WorkUnit} {via name : String} (hvia : via ∈ u.freeVars.toList)
      (hunit : env.bindings.get? via = some (.unit w)) (hreach : Reaches env w name) :
      Reaches env u name

/-- Units whose texts a length of eight bytes can count. -/
structure WorkUnit.IsRegular (u : WorkUnit) : Prop where
  source : IsShort u.normalSource
  names : ∀ name ∈ u.freeVars.toList, IsShort name
  modules : ∀ m ∈ u.modules, IsShort m.name ∧ IsShort m.toJson.text

/-- The same of what names stand for, with values in standard form. -/
def Resolved.IsRegular : Resolved → Prop
  | .value v => v.isStandard = true
  | .unit u => u.IsRegular
  | .module m => IsShort m.name
  | .impure _ => True

/-- A unit that reaches nothing impure, and nothing that cannot be written down. -/
structure Environment.IsPureFrom (env : Environment) (u : WorkUnit) : Prop where
  unit : u.IsRegular
  regular : ∀ name r, env.Reaches u name → env.bindings.get? name = some r → r.IsRegular
  pure : ∀ name reason, env.Reaches u name → env.bindings.get? name ≠ some (.impure reason)

/-- So does a unit that one of its names stands for. -/
theorem Environment.IsPureFrom.through {env : Environment} {u w : WorkUnit} {via : String}
    (h : env.IsPureFrom u) (hvia : via ∈ u.freeVars.toList)
    (hunit : env.bindings.get? via = some (.unit w)) : env.IsPureFrom w := by
  refine ⟨h.regular via (.unit w) (.own hvia) hunit, ?_, ?_⟩
  · intro name r hreach
    exact h.regular name r (.through hvia hunit hreach)
  · intro name reason hreach
    exact h.pure name reason (.through hvia hunit hreach)

/-! ## §2. A structural identity tells the outline. -/

/-- The text of a module begins with its name. -/
theorem ModuleRef.name_eq_of_text {m m' : ModuleRef} (h : m.toJson.text = m'.toJson.text) :
    m.name = m'.name := by
  have htexts := congrArg String.toList h
  obtain ⟨name, _, _, _, _⟩ := m
  obtain ⟨name', _, _, _, _⟩ := m'
  simp only [ModuleRef.toJson, Json.toList_object_cons] at htexts
  have hafterKey := List.append_cancel_left (List.cons.inj htexts).2
  exact (Json.quote_append_injective (List.cons.inj hafterKey).2).1

/-- Lists that a function maps to one list are mapped to one list by what the function tells. -/
theorem map_eq_map_of_told {α β γ : Type} {f : α → β} {g : α → γ} {as bs : List α}
    (htold : ∀ a ∈ as, ∀ b ∈ bs, f a = f b → g a = g b) (h : as.map f = bs.map f) :
    as.map g = bs.map g := by
  induction as generalizing bs with
  | nil =>
    rw [List.map_nil, eq_comm, List.map_eq_nil_iff] at h
    rw [h]
  | cons a rest ih =>
    cases bs with
    | nil => exact absurd h (List.cons_ne_nil _ _)
    | cons b rest' =>
      obtain ⟨hhead, htail⟩ := List.cons.inj h
      rw [List.map_cons, List.map_cons,
        htold a (List.mem_cons_self ..) b (List.mem_cons_self ..) hhead,
        ih (fun a ha b hb => htold a (List.mem_cons_of_mem _ ha) b (List.mem_cons_of_mem _ hb))
          htail]

/-- The digits of a byte tell the byte. -/
theorem Digest.hexByte_injective {a b : UInt8} (h : hexByte a = hexByte b) : a = b := by
  have hdigit : ∀ i j : Fin 16, Nat.digitChar i = Nat.digitChar j → i = j := by decide
  have hlt : ∀ a : UInt8, a.toNat / 16 < 16 := fun a => by have := a.toNat_lt; omega
  obtain ⟨hhigh, hlow⟩ := List.cons.inj h
  have hhigh := hdigit ⟨a.toNat / 16, hlt a⟩ ⟨b.toNat / 16, hlt b⟩ hhigh
  have hlow := hdigit ⟨a.toNat % 16, Nat.mod_lt _ (by decide)⟩
    ⟨b.toNat % 16, Nat.mod_lt _ (by decide)⟩ (List.cons.inj hlow).1
  rw [Fin.mk.injEq] at hhigh hlow
  exact UInt8.toNat_inj.1 (by omega)

/-- The hexadecimal digits tell the digest. -/
theorem Digest.hex_injective {d e : Digest} (h : d.hex = e.hex) : d = e := by
  have hbyte : ∀ {a b : UInt8} {x y : List Char}, True → True →
      hexByte a ++ x = hexByte b ++ y → a = b ∧ x = y := by
    intro a b x y _ _ h
    obtain ⟨hdigits, hafter⟩ := List.append_inj h rfl
    exact ⟨hexByte_injective hdigits, hafter⟩
  have hbytes : d.bytes = e.bytes :=
    flatMap_injective_of_delimited (fun _ _ => List.cons_ne_nil _ _) hbyte (fun _ _ => trivial)
      (fun _ _ => trivial) (String.ofList_injective h)
  cases d; cases e; simp_all

/-- The fields of a structural identity hold texts only. -/
theorem WorkUnit.IsRegular.identityFields {u : WorkUnit} [HashFunction] (hu : u.IsRegular) :
    ∀ f ∈ u.identityFields, f.IsRegular [] := by
  intro f hf
  rcases List.mem_append.1 hf with hf | hf
  · rcases List.mem_cons.1 hf with rfl | hf
    · exact Field.isRegular_of_short (by decide) (by decide) hu.source
    · obtain ⟨name, hname, rfl⟩ := List.mem_map.1 hf
      exact Field.isRegular_of_short (by decide) (by decide) (hu.names name hname)
  · obtain ⟨m, hm, rfl⟩ := List.mem_map.1 hf
    exact Field.isRegular_of_short (by decide) (by decide) (hu.modules m hm).2

/-- The fields of a structural identity tell the source, the names and the written forms of the
modules. -/
theorem WorkUnit.written_eq_of_fields {u v : WorkUnit} (h : u.identityFields = v.identityFields) :
    u.normalSource = v.normalSource ∧ u.freeVars.toList = v.freeVars.toList ∧
      u.modules.map (·.toJson.text) = v.modules.map (·.toJson.text) := by
  obtain ⟨hsource, hrest⟩ := List.cons.inj h
  -- the names end where the first module begins
  have htag : ∀ names : List String, ∀ f ∈ names.map (Field.ofText "var"), f.tag = "var" := by
    intro names f hf
    obtain ⟨name, -, rfl⟩ := List.mem_map.1 hf
    rfl
  have hmodule : ∀ modules : List ModuleRef,
      ∀ f ∈ (modules.map fun m => Field.ofText "module" m.toJson.text).head?, f.tag ≠ "var" := by
    intro modules f hf
    obtain ⟨m, -, rfl⟩ := List.mem_map.1 (List.mem_of_mem_head? hf)
    exact (by decide : "module" ≠ "var")
  obtain ⟨hnames, hmodules⟩ := Field.append_injective_of_tags (htag _) (htag _) (hmodule _)
    (hmodule _) hrest
  exact ⟨Field.ofText_injective hsource,
    List.map_injective_iff.2 (fun _ _ => Field.ofText_injective) hnames,
    map_eq_map_of_told (fun _ _ _ _ => Field.ofText_injective) hmodules⟩

variable [HashFunction]

/-- Units of one structural identity have one source, the same names and modules of one written
form. -/
theorem WorkUnit.written_eq_of_identity (hash : HashFunction.CollisionFree) {u v : WorkUnit}
    (hu : u.IsRegular) (hv : v.IsRegular) (h : u.identity = v.identity) :
    u.normalSource = v.normalSource ∧ u.freeVars.toList = v.freeVars.toList ∧
      u.modules.map (·.toJson.text) = v.modules.map (·.toJson.text) :=
  WorkUnit.written_eq_of_fields
    (Digest.ofFields_injective hash hu.identityFields hv.identityFields h)

/-- Units of one structural identity have one outline. -/
theorem WorkUnit.outline_eq_of_identity (hash : HashFunction.CollisionFree) {u v : WorkUnit}
    (hu : u.IsRegular) (hv : v.IsRegular) (h : u.identity = v.identity) :
    u.outline = v.outline := by
  obtain ⟨hsource, hnames, hmodules⟩ := u.written_eq_of_identity hash hu hv h
  unfold WorkUnit.outline
  rw [hsource, hnames,
    map_eq_map_of_told (fun m _ m' _ htext => ModuleRef.name_eq_of_text htext) hmodules]

/-! ## §3. A content digest tells the content. -/

/-- What is told of a name: nothing is bound to it, its value, the name of its module, or the digest
of its unit. -/
inductive Told where
  | unbound
  | value (v : Json)
  | module (name : String)
  | unit (d : Digest)

/-- The digest of a module that is not pinned. -/
def nameDigest (name : String) : Digest := .ofFields "module" [.ofText "name" name]

namespace Told

/-- The field of what is told of a name. -/
def field : Told → Field
  | .unbound => ⟨"unbound", []⟩
  | .value v => .ofDigest "value" (.ofValue v)
  | .module name => .ofDigest "module" (nameDigest name)
  | .unit d => .ofDigest "unit" d

/-- What can be told from what follows it. -/
def IsRegular : Told → Prop
  | .unbound => True
  | .value v => v.isStandard = true
  | .module name => IsShort name
  | .unit d => ∃ message, d = .ofMessage message

/-- What is told of a name, as it is written beside it. -/
def entry : Told → Entry
  | .unbound => .plain ⟨"unbound", []⟩
  | .value v => .plain (.ofDigest "value" (.ofValue v))
  | .module name => .plain (.ofDigest "module" (nameDigest name))
  | .unit d => .unit d

@[simp] theorem field_entry (told : Told) : told.entry.field = told.field := by
  cases told <;> rfl

theorem entry_regular {told : Told} (h : told.IsRegular) : told.entry.IsRegular := by
  cases told with
  | unbound => exact ⟨Field.isRegular_of_short (by decide) (by decide) (by decide), by decide⟩
  | value v =>
    exact ⟨Field.isRegular_ofDigest (by decide) (by decide) _, (by decide : "value" ≠ "unit")⟩
  | module name =>
    exact ⟨Field.isRegular_ofDigest (by decide) (by decide) _, (by decide : "module" ≠ "unit")⟩
  | unit d => exact h

end Told

/-- The digest of a module that is not pinned tells its name. -/
theorem nameDigest_injective (hash : HashFunction.CollisionFree) {a b : String} (ha : IsShort a)
    (hb : IsShort b) (h : nameDigest a = nameDigest b) : a = b := by
  have hregular : ∀ {a : String}, IsShort a → ∀ f ∈ [Field.ofText "name" a], f.IsRegular [] := by
    intro a ha f hf
    obtain rfl := List.mem_singleton.1 hf
    exact Field.isRegular_of_short (by decide) (by decide) ha
  have hfields := Digest.ofFields_injective hash (hregular ha) (hregular hb) h
  exact Field.ofText_injective (List.cons.inj hfields).1

/-- What is written beside a name tells what the name stands for. -/
theorem Told.entry_injective (hash : HashFunction.CollisionFree) {a b : Told} (ha : a.IsRegular)
    (hb : b.IsRegular) (h : a.entry = b.entry) : a = b := by
  have htag := congrArg (fun e => e.field.tag) h
  cases a with
  | unbound =>
    cases b with
    | unbound => rfl
    | _ => simp [entry, Entry.field, Field.ofDigest] at htag
  | value v =>
    cases b with
    | value w =>
      rw [ofValue_injective hash ha hb (Field.ofDigest_injective (Entry.plain.inj h))]
    | _ => simp [entry, Entry.field, Field.ofDigest] at htag
  | module name =>
    cases b with
    | module name' =>
      rw [nameDigest_injective hash ha hb (Field.ofDigest_injective (Entry.plain.inj h))]
    | _ => simp [entry, Entry.field, Field.ofDigest] at htag
  | unit d =>
    cases b with
    | unit e => rw [Entry.unit.inj h]
    | _ => simp [entry, Entry.field, Field.ofDigest] at htag

/-- What the content digest of a unit is made from. -/
structure Content where
  source : String
  /-- The names of the modules. -/
  modules : List String
  /-- The names that the unit closes over, in order, with what they stand for. -/
  entries : List (String × Told)

namespace Content

/-- The names that the unit closes over. -/
def names (c : Content) : List String := c.entries.map Prod.fst

def outline (c : Content) : Outline := ⟨c.source, c.names, c.modules⟩

/-- The fields of what names stand for. -/
def entryFields (entries : List (String × Told)) : List Field :=
  entries.flatMap fun e => [.ofText "var" e.1, e.2.field]

def fields (c : Content) : List Field :=
  .ofText "source" c.source :: c.modules.map (fun m => .ofDigest "module" (nameDigest m)) ++
    entryFields c.entries

def digest (c : Content) : Digest := .ofFields "content" c.fields

/-- Everything in it can be told from what follows it. -/
structure IsRegular (c : Content) : Prop where
  source : IsShort c.source
  modules : ∀ m ∈ c.modules, IsShort m
  entries : ∀ e ∈ c.entries, IsShort e.1 ∧ e.2.IsRegular

/-- The same with digests for the names of modules. -/
def body (c : Content) : Body :=
  ⟨c.source, c.modules.map nameDigest, c.entries.map fun e => (e.1, e.2.entry)⟩

theorem digest_body (c : Content) : c.body.digest = c.digest := by
  have hentries : Notebook.entryFields c.body.entries = entryFields c.entries := by
    simp [body, Notebook.entryFields, entryFields, List.flatMap_map]
  unfold Body.digest digest Body.fields fields
  rw [hentries]
  simp [body, Function.comp_def]

theorem body_regular {c : Content} (hc : c.IsRegular) : c.body.IsRegular := by
  refine ⟨hc.source, fun d hd => ?_, fun e he => ?_⟩
  · obtain ⟨m, -, rfl⟩ := List.mem_map.1 hd
    exact ⟨_, rfl⟩
  · obtain ⟨e, hmem, rfl⟩ := List.mem_map.1 he
    exact ⟨(hc.entries e hmem).1, Told.entry_regular (hc.entries e hmem).2⟩

/-- Contents of one digest are one content. -/
theorem digest_injective (hash : HashFunction.CollisionFree) {c c' : Content} (hc : c.IsRegular)
    (hc' : c'.IsRegular) (h : c.digest = c'.digest) : c = c' := by
  rw [← digest_body, ← digest_body] at h
  obtain ⟨hsource, hmodules, hentries⟩ := Body.mk.inj
    (Body.digest_injective hash (body_regular hc) (body_regular hc') h)
  have hmodulesEq : c.modules.map id = c'.modules.map id :=
    map_eq_map_of_told (fun m hm m' hm' hdigest => nameDigest_injective hash (hc.modules m hm)
      (hc'.modules m' hm') hdigest) hmodules
  have hentriesEq : c.entries.map id = c'.entries.map id := by
    refine map_eq_map_of_told (fun e he e' he' hentry => ?_) hentries
    obtain ⟨hname, htold⟩ := Prod.mk.inj hentry
    exact Prod.ext hname
      (Told.entry_injective hash (hc.entries e he).2 (hc'.entries e' he').2 htold)
  rw [List.map_id, List.map_id] at hmodulesEq hentriesEq
  cases c; cases c'
  simp_all only

end Content

/-! ## §4. Units that are met inside themselves. -/

/-- What a unit counts as inside itself tells its structural identity. -/
theorem recursionDigest_injective (hash : HashFunction.CollisionFree) {a b : Digest}
    (h : recursionDigest a = recursionDigest b) : a = b := by
  have htext : "recursive:" ++ a.hex = "recursive:" ++ b.hex :=
    utf8_injective (hash.injective _ _ h)
  exact Digest.hex_injective (String.append_right_inj _ |>.1 htext)

/-- It is no content digest. -/
theorem Content.digest_ne_recursionDigest (hash : HashFunction.CollisionFree) (c : Content)
    (identity : Digest) : c.digest ≠ recursionDigest identity := by
  rw [← digest_body]
  exact c.body.digest_ne_recursionDigest hash identity

/-! ## §5. What a digest covers. -/

/-- The names that a content digest covers: those of its content, and those that the digests inside
it cover. -/
inductive Digest.Covers : Digest → String → Prop
  | own {d : Digest} {name : String} (c : Content) (hc : c.IsRegular) (hd : d = c.digest)
      (hname : name ∈ c.names) : Covers d name
  | inner {d inner : Digest} {via name : String} (c : Content) (hc : c.IsRegular)
      (hd : d = c.digest) (hvia : (via, .unit inner) ∈ c.entries) (hcovers : Covers inner name) :
      Covers d name

namespace Environment

/-- What is told of a name is what it stands for; a unit is told by any digest. -/
def Tells (env : Environment) (name : String) : Told → Prop
  | .unbound => env.bindings.get? name = none
  | .value v => env.bindings.get? name = some (.value v)
  | .module moduleName => ∃ m, env.bindings.get? name = some (.module m) ∧ m.name = moduleName
  | .unit _ => ∃ w, env.bindings.get? name = some (.unit w)

/-- A digest that a unit is hashed to: that of its content, with the units among its names hashed
in turn, or what it counts as inside itself. -/
inductive Hashes (env : Environment) : Digest → WorkUnit → Prop
  | again {d : Digest} {u : WorkUnit} (hu : u.IsRegular) (hd : d = recursionDigest u.identity) :
      Hashes env d u
  | content {d : Digest} {u : WorkUnit} (c : Content) (hc : c.IsRegular) (hd : d = c.digest)
      (houtline : c.outline = u.outline) (htells : ∀ e ∈ c.entries, env.Tells e.1 e.2)
      (hinner : ∀ name inner w, (name, .unit inner) ∈ c.entries →
        env.bindings.get? name = some (.unit w) → Hashes env inner w) :
      Hashes env d u

namespace Hashes

variable {env env' : Environment} {d : Digest} {u u' : WorkUnit} {name : String}

/-- It is the digest of some message. -/
theorem isDigest (h : env.Hashes d u) : ∃ message, d = .ofMessage message := by
  cases h with
  | again hu hd => exact ⟨_, hd⟩
  | content c hc hd houtline htells hinner => exact ⟨_, hd⟩

/-- A unit of the same structural identity is hashed to the same. -/
theorem congr (hash : HashFunction.CollisionFree) (h : env.Hashes d u) (hu : u.IsRegular)
    (hu' : u'.IsRegular) (hidentity : u.identity = u'.identity) : env.Hashes d u' := by
  cases h with
  | again _ hd => exact .again hu' (hidentity ▸ hd)
  | content c hc hd houtline htells hinner =>
    exact .content c hc hd (houtline.trans (u.outline_eq_of_identity hash hu hu' hidentity))
      htells hinner

/-- A unit that is hashed to the digest of a content has this content. -/
theorem of_content (hash : HashFunction.CollisionFree) {c : Content} (hc : c.IsRegular)
    (h : env.Hashes c.digest u) :
    c.outline = u.outline ∧ (∀ e ∈ c.entries, env.Tells e.1 e.2) ∧
      ∀ name inner w, (name, .unit inner) ∈ c.entries →
        env.bindings.get? name = some (.unit w) → env.Hashes inner w := by
  cases h with
  | again _ hd => exact absurd hd (c.digest_ne_recursionDigest hash _)
  | content c' hc' hd houtline htells hinner =>
    obtain rfl := Content.digest_injective hash hc hc' hd
    exact ⟨houtline, htells, hinner⟩

/-- Units that are hashed to one digest have one outline. -/
theorem outline_eq (hash : HashFunction.CollisionFree) (h : env.Hashes d u)
    (h' : env'.Hashes d u') : u.outline = u'.outline := by
  cases h with
  | again hu hd =>
    cases h' with
    | again hu' hd' =>
      exact u.outline_eq_of_identity hash hu hu' (recursionDigest_injective hash (hd ▸ hd'))
    | content c hc hd' _ _ _ =>
      exact absurd (hd'.symm.trans hd) (c.digest_ne_recursionDigest hash _)
  | content c hc hd houtline _ _ =>
    subst hd
    exact houtline.symm.trans (h'.of_content hash hc).1

/-- A name that is told alike in two environments is resolved alike. -/
theorem alike_of_tells (hash : HashFunction.CollisionFree) {told : Told}
    (htells : env.Tells name told) (htells' : env'.Tells name told)
    (hinner : ∀ inner w, told = .unit inner → env.bindings.get? name = some (.unit w) →
      env.Hashes inner w)
    (hinner' : ∀ inner w, told = .unit inner → env'.bindings.get? name = some (.unit w) →
      env'.Hashes inner w) :
    Resolved.Alike (env.bindings.get? name) (env'.bindings.get? name) := by
  cases told with
  | unbound =>
    rw [show env.bindings.get? name = none from htells,
      show env'.bindings.get? name = none from htells']
    exact .unbound
  | value v =>
    rw [show env.bindings.get? name = some (.value v) from htells,
      show env'.bindings.get? name = some (.value v) from htells']
    exact .value v
  | module moduleName =>
    obtain ⟨m, hm, rfl⟩ := htells
    obtain ⟨m', hm', hname⟩ := htells'
    rw [hm, hm']
    exact .module hname.symm
  | unit inner =>
    obtain ⟨w, hw⟩ := htells
    obtain ⟨w', hw'⟩ := htells'
    rw [hw, hw']
    exact .unit (outline_eq hash (hinner inner w rfl hw) (hinner' inner w' rfl hw'))

/-- Names that a digest covers are resolved alike wherever a unit is hashed to it. -/
theorem alike (hash : HashFunction.CollisionFree) (hcovers : d.Covers name)
    (h : env.Hashes d u) (h' : env'.Hashes d u') :
    Resolved.Alike (env.bindings.get? name) (env'.bindings.get? name) := by
  induction hcovers generalizing u u' with
  | own c hc hd hname =>
    subst hd
    obtain ⟨-, htells, hinner⟩ := h.of_content hash hc
    obtain ⟨-, htells', hinner'⟩ := h'.of_content hash hc
    obtain ⟨⟨name, told⟩, he, rfl⟩ := List.mem_map.1 hname
    refine alike_of_tells hash (htells _ he) (htells' _ he) ?_ ?_
    · rintro inner w rfl
      exact hinner name inner w he
    · rintro inner w rfl
      exact hinner' name inner w he
  | inner c hc hd hvia _ ih =>
    subst hd
    obtain ⟨-, htells, hinner⟩ := h.of_content hash hc
    obtain ⟨-, htells', hinner'⟩ := h'.of_content hash hc
    obtain ⟨w, hw⟩ := htells _ hvia
    obtain ⟨w', hw'⟩ := htells' _ hvia
    exact ih (hinner _ _ w hvia hw) (hinner' _ _ w' hvia hw')

/-- They are names that the unit reaches. -/
theorem reaches (hash : HashFunction.CollisionFree) (hcovers : d.Covers name)
    (h : env.Hashes d u) : env.Reaches u name := by
  induction hcovers generalizing u with
  | own c hc hd hname =>
    subst hd
    have hnames : c.names = u.freeVars.toList := congrArg Outline.names (h.of_content hash hc).1
    exact .own (hnames ▸ hname)
  | inner c hc hd hvia _ ih =>
    subst hd
    obtain ⟨houtline, htells, hinner⟩ := h.of_content hash hc
    have hnames : c.names = u.freeVars.toList := congrArg Outline.names houtline
    obtain ⟨w, hw⟩ := htells _ hvia
    exact .through (hnames ▸ List.mem_map_of_mem hvia) hw (ih (hinner _ _ w hvia hw))

end Hashes

end Environment

end Notebook
