/-
  Notebook.Proofs.Wire.RoundTrips — what is written is read back.

  Every written form is read back, in whatever order the fields of its objects stand, and gives the
  value that was written.  There is one exception: a display of null reads back as none, in an
  output and in the message that tells it.  Numbers are taken within 64 bits, digests with
  thirty-two bytes and values of programs in standard form (`InRange`), which is all that the
  written forms are for.

  Main results:
    * `CellError.readsAs`, `Message.readsAs` — errors and messages, with the errors inside them,
    * `ModuleRef.readsAs` — modules, with the modules that they import,
    * `CellOutput.readsAs` — outputs, up to a display of null,
    * `wireForms_roundTrip` — every type of written form is read back, and an output that is served
      from the cache has the bindings that were stored.
-/
import Notebook.Digest.Sha256
import Notebook.Kernel.Run
import Notebook.Proofs.Cache.Store
import Notebook.Proofs.Wire.Readers

namespace Notebook

open Wire

/-! ## §1. Cells. -/

/-- The number has 64 bits. -/
def CellId.InRange (id : CellId) : Prop := id.number < 2 ^ 64

theorem CellId.readsAs {id : CellId} (hid : id.InRange) : ReadsAs CellId.ofJson? id.toJson id :=
  (ReadsAs.natural hid).map CellId.mk

theorem cells_readAs {cells : List CellId} (hcells : ∀ id ∈ cells, id.InRange) :
    ReadsAs (list? CellId.ofJson?) (cellsToJson cells) cells :=
  ReadsAs.list fun id hid => CellId.readsAs (hcells id hid)

theorem CellStatus.readsAs (s : CellStatus) : ReadsAs CellStatus.ofJson? s.toJson s where
  clean := rfl
  reads := fun doc h => by
    rw [h.eq_string]
    cases s <;> rfl

/-- The same inside a message. -/
theorem CellStatus.partReadsAs (s : CellStatus) : ReadsAs CellStatus.ofPart? s.toJson s where
  clean := rfl
  reads := fun doc h => by
    rw [h.eq_string]
    cases s <;> rfl

theorem CellSpec.readsAs {s : CellSpec} (hs : s.id.InRange) :
    ReadsAs CellSpec.ofJson? s.toJson s := by
  have hid := CellId.readsAs hs
  have hcode := ReadsAs.text s.code
  have hdefs := ReadsAs.names s.defs
  have hrefs := ReadsAs.names s.refs
  refine ReadsAs.record ?_ fun fields h => ?_
  · simp [hid.clean, hdefs.clean, hrefs.clean]
  · simp [required_respelled h "id" rfl hid, required_respelled h "code" rfl hcode,
      defaulted_respelled h "defs" rfl hdefs, defaulted_respelled h "refs" rfl hrefs]

/-! ## §2. Bindings and origins. -/

/-- Values are in standard form, and numbers have 64 bits. -/
def Binding.InRange : Binding → Prop
  | .value v => v.isStandard = true
  | .state id => id.number < 2 ^ 64
  | .watch id => id.number < 2 ^ 64
  | _ => True

theorem Binding.readsAs {b : Binding} (hb : b.InRange) : ReadsAs Binding.ofJson? b.toJson b := by
  cases b with
  | value v =>
    exact (ReadsAs.value hb).adjacent (by decide) fun doc c _ h => by simp [ofJson?, h, kind]
  | element id =>
    have hid : ReadsAs ElementId.ofJson? (.string id.text) id := (ReadsAs.text id.text).map _
    exact hid.adjacent (by decide) fun doc c _ h => by simp [ofJson?, h, kind]
  | state id =>
    have hid : ReadsAs StateId.ofJson? (.nat id.number) id := (ReadsAs.natural hb).map _
    exact hid.adjacent (by decide) fun doc c _ h => by simp [ofJson?, h, kind]
  | watch id =>
    have hid : ReadsAs WatchId.ofJson? (.nat id.number) id := (ReadsAs.natural hb).map _
    exact hid.adjacent (by decide) fun doc c _ h => by simp [ofJson?, h, kind]
  | model id =>
    have hid : ReadsAs ModelId.ofJson? (.string id.text) id := (ReadsAs.text id.text).map _
    exact hid.adjacent (by decide) fun doc c _ h => by simp [ofJson?, h, kind]
  | opaqueValue typeName =>
    have htype : ReadsAs (fun doc => (record? ["type_name"] doc).bind fun r =>
        r.required "type_name" text?) (.object [("type_name", .string typeName)]) typeName :=
      ReadsAs.record rfl fun fields h => required_respelled h "type_name" rfl (.text typeName)
    refine htype.adjacent (by decide) fun doc c hc h => ?_
    -- what is opaque is described by an object and not by an array
    obtain ⟨fields, rfl, hfields⟩ := hc.of_object
    simp [ofJson?, h, kind, record?_object hfields.clean]

theorem bindings_readAs {bindings : Table String Binding}
    (h : ∀ name b, bindings.get? name = some b → b.InRange) :
    ReadsAs (table? Binding.ofJson?) (bindingsToJson bindings) bindings :=
  ReadsAs.table fun name b hb => Binding.readsAs (h name b hb)

/-- The number of a cell has 64 bits. -/
def Origin.InRange : Origin → Prop
  | .cell id => id.InRange
  | .external => True

theorem Origin.readsAs {o : Origin} (ho : o.InRange) : ReadsAs Origin.ofJson? o.toJson o := by
  cases o with
  | cell id =>
    have hid := CellId.readsAs ho
    refine ⟨by simp [Origin.toJson, hid.clean], fun doc hdoc => ?_⟩
    obtain ⟨v, rfl, hv⟩ := hdoc.of_singleton
    show (CellId.ofJson? v).map Origin.cell = some (.cell id)
    rw [hid.reads v hv, Option.map_some]
  | external =>
    refine ⟨rfl, fun doc hdoc => ?_⟩
    rw [hdoc.eq_string]
    rfl

/-! ## §3. Elements. -/

/-- The index has 64 bits. -/
def Lens.InRange : Lens → Prop
  | .index i => i < 2 ^ 64
  | _ => True

theorem Lens.readsAs {l : Lens} (hl : l.InRange) : ReadsAs Lens.ofJson? l.toJson l := by
  cases l with
  | identity =>
    refine ⟨rfl, fun doc hdoc => ?_⟩
    obtain ⟨fields, hadjacent, hfields⟩ := adjacent?_respelled "lens" "at" hdoc rfl
    rw [hfields.no_field "at" rfl] at hadjacent
    simp [Lens.ofJson?, hadjacent, noContent]
  | index i =>
    exact (ReadsAs.natural hl).adjacent (by decide) fun doc c _ h => by simp [Lens.ofJson?, h]
  | key k => exact (ReadsAs.text k).adjacent (by decide) fun doc c _ h => by simp [Lens.ofJson?, h]

theorem ElementKind.readsAs (k : ElementKind) : ReadsAs ElementKind.ofJson? k.toJson k := by
  cases k with
  | leaf widget =>
    refine ReadsAs.tagged text? rfl rfl fun doc fields h hfields => ?_
    simp [ElementKind.ofJson?, h, record?_object hfields.clean,
      required_respelled hfields "widget" rfl (.text widget)]
  | array => exact ReadsAs.tagged text? rfl rfl fun doc _ h _ => by simp [ofJson?, h, noFields]
  | dictionary => exact ReadsAs.tagged text? rfl rfl fun doc _ h _ => by simp [ofJson?, h, noFields]
  | batch => exact ReadsAs.tagged text? rfl rfl fun doc _ h _ => by simp [ofJson?, h, noFields]

/-! ## §4. Identities. -/

/-- There are thirty-two bytes. -/
def Digest.InRange (d : Digest) : Prop := d.bytes.length = Digest.width

theorem Digest.readsAs {d : Digest} (hd : d.InRange) : ReadsAs Digest.ofJson? d.toJson d :=
  ReadsAs.digest hd

theorem Strategy.readsAs {s : Strategy} (hs : s.digest.InRange) :
    ReadsAs Strategy.ofJson? s.toJson s := by
  cases s with
  | content d =>
    exact (ReadsAs.digest hs).adjacent (by decide) fun doc c _ h => by simp [ofJson?, h, kind]
  | path d =>
    exact (ReadsAs.digest hs).adjacent (by decide) fun doc c _ h => by simp [ofJson?, h, kind]

/-- The digests have thirty-two bytes. -/
def TraceOp.InRange : TraceOp → Prop
  | .importModule _ _ => True
  | .call _ args result => args.InRange ∧ result.InRange
  | .read _ value => value.InRange

theorem TraceOp.readsAs {op : TraceOp} (hop : op.InRange) :
    ReadsAs TraceOp.ofJson? op.toJson op := by
  cases op with
  | importModule module version =>
    have hversion := ReadsAs.optionText version
    refine ReadsAs.tagged text? rfl ?_ fun doc fields h hfields => ?_
    · simp [hversion.clean]
    · simp [ofJson?, h, record?_object hfields.clean,
        required_respelled hfields "module" rfl (.text module),
        optional_respelled hfields "version" rfl hversion]
  | call unit args result =>
    have hargs := ReadsAs.digest hop.1
    have hresult := ReadsAs.digest hop.2
    refine ReadsAs.tagged text? rfl ?_ fun doc fields h hfields => ?_
    · simp [hargs.clean, hresult.clean]
    · simp [ofJson?, h, record?_object hfields.clean,
        required_respelled hfields "unit" rfl (.text unit),
        required_respelled hfields "args" rfl hargs,
        required_respelled hfields "result" rfl hresult]
  | read name value =>
    have hvalue := ReadsAs.digest hop
    refine ReadsAs.tagged text? rfl ?_ fun doc fields h hfields => ?_
    · simp [hvalue.clean]
    · simp [ofJson?, h, record?_object hfields.clean,
        required_respelled hfields "name" rfl (.text name),
        required_respelled hfields "value" rfl hvalue]

theorem Trace.readsAs {t : Trace} (ht : ∀ op ∈ t, op.InRange) :
    ReadsAs Trace.ofJson? (Trace.toJson t) t := by
  have hops : ReadsAs (list? TraceOp.ofJson?) (.array (t.map TraceOp.toJson)) t :=
    ReadsAs.list fun op hop => TraceOp.readsAs (ht op hop)
  refine ReadsAs.record ?_ fun fields h => ?_
  · simp [hops.clean]
  · exact required_respelled h "ops" rfl hops

/-! ## §5. Modules. -/

theorem ModuleRef.listToJson_eq_map (modules : List ModuleRef) :
    ModuleRef.listToJson modules = modules.map ModuleRef.toJson := by
  induction modules with
  | nil => rfl
  | cons m rest ih => exact congrArg (m.toJson :: ·) ih

/-- An item of an array is nested less deep than the array. -/
theorem Json.depth_lt_of_mem {items : List Json} {item : Json} (h : item ∈ items) :
    item.depth < (Json.array items).depth := by
  have hmax : item.depth ≤ Json.depthOfItems items := by
    induction items with
    | nil => cases h
    | cons first rest ih =>
      show item.depth ≤ max first.depth (Json.depthOfItems rest)
      rcases List.mem_cons.1 h with rfl | h
      · omega
      · have := ih h
        omega
  show item.depth < Json.depthOfItems items + 1
  omega

/-- And so is a field of an object. -/
theorem Json.depth_lt_of_lookup {fields : List (String × Json)} {key : String} {v : Json}
    (h : fields.lookup key = some v) : v.depth < (Json.object fields).depth := by
  have hmax : v.depth ≤ Json.depthOfFields fields := by
    have hmem := mem_of_lookup h
    clear h
    induction fields with
    | nil => cases hmem
    | cons first rest ih =>
      show v.depth ≤ max first.2.depth (Json.depthOfFields rest)
      rcases List.mem_cons.1 hmem with rfl | hmem
      · exact Nat.le_max_left ..
      · have := ih hmem
        omega
  show v.depth < Json.depthOfFields fields + 1
  omega

namespace ModuleRef

mutual

theorem isClean_toJson : (m : ModuleRef) → m.toJson.isClean = true
  | ⟨name, localName, version, origin, imports⟩ => by
    have hlocalName := (ReadsAs.optionText localName).clean
    have hversion := (ReadsAs.optionText version).clean
    have horigin := (ReadsAs.optionText origin).clean
    have himports : (Json.array (listToJson imports)).isClean = true := areClean_listToJson imports
    simp [toJson, hlocalName, hversion, horigin, himports]

theorem areClean_listToJson : (modules : List ModuleRef) →
    Json.areClean (listToJson modules) = true
  | [] => rfl
  | m :: rest => Bool.and_eq_true_iff.2 ⟨isClean_toJson m, areClean_listToJson rest⟩

end

/-- A module is read back as soon as its imports may nest deeper than the document does. -/
theorem ofJsonWithin_respelled : (m : ModuleRef) → (doc : Json) → (depth : Nat) →
    doc.Respells m.toJson → doc.depth < depth → ofJsonWithin depth doc = some m
  | ⟨name, localName, version, origin, imports⟩, doc, depth, hdoc, hdepth => by
    obtain ⟨fields, rfl, hfields⟩ := hdoc.of_object
    obtain ⟨depth, rfl⟩ : ∃ d, depth = d + 1 := ⟨depth - 1, by omega⟩
    obtain ⟨v, hv, hrespells⟩ := hfields.field "imports" rfl
    obtain ⟨items, rfl, hitems⟩ := hrespells.of_array
    rw [listToJson_eq_map] at hitems
    have hlist : list? (ofJsonWithin depth) (.array items) = some imports := by
      refine ReadsAs.mapM_respelled hitems fun m hm item hitem hrespells => ?_
      -- two levels further in: an item of the array that is a field of the document
      have hin := Json.depth_lt_of_mem hitem
      have hout := Json.depth_lt_of_lookup hv
      exact ofJsonWithin_respelled m item depth hrespells (by omega)
    have himports : Record.defaulted ⟨fields, false⟩ "imports" [] (list? (ofJsonWithin depth)) =
        some imports := by
      unfold Record.defaulted
      rw [hv]
      exact hlist
    simp [ofJsonWithin, record?_object hfields.clean, himports,
      required_respelled hfields "name" rfl (.text name),
      defaulted_respelled hfields "alias" rfl (.optionText localName),
      defaulted_respelled hfields "version" rfl (.optionText version),
      defaulted_respelled hfields "origin" rfl (.optionText origin)]
termination_by m => sizeOf m
decreasing_by
  have := List.sizeOf_lt_of_mem hm
  simp
  omega

theorem readsAs (m : ModuleRef) : ReadsAs ModuleRef.ofJson? m.toJson m where
  clean := isClean_toJson m
  reads := fun doc hdoc => ofJsonWithin_respelled m doc _ hdoc (by omega)

end ModuleRef

/-! ## §6. Errors and messages. -/

theorem failure_readsAs (message : String) :
    ReadsAs failureOfJson? (failureToJson message) message :=
  ReadsAs.record rfl fun _ h => required_respelled h "message" rfl (.text message)

/-- The numbers of cells have 64 bits. -/
def CellError.InRange : CellError → Prop
  | .multipleDefinition _ cells => ∀ id ∈ cells, id.InRange
  | .cycle cells => ∀ id ∈ cells, id.InRange
  | .exception _ => True
  | .ancestorFailed ancestor => ancestor.InRange
  | .ancestorBlocked ancestor => ancestor.InRange

/-- An error is read back by whatever reads a tag as the name that it is. -/
theorem CellError.readsAsWith {variant? : Json → Option String}
    (hvariant : ∀ name, variant? (.string name) = some name) {e : CellError} (he : e.InRange) :
    ReadsAs (CellError.ofJsonWith? variant?) e.toJson e := by
  cases e with
  | multipleDefinition name cells =>
    have hcells := cells_readAs he
    refine ReadsAs.tagged variant? (hvariant _) ?_ fun doc fields h hfields => ?_
    · simp [hcells.clean]
    · simp [ofJsonWith?, h, record?_object hfields.clean,
        required_respelled hfields "name" rfl (.text name),
        required_respelled hfields "cells" rfl hcells]
  | cycle cells =>
    have hcells := cells_readAs he
    refine ReadsAs.tagged variant? (hvariant _) ?_ fun doc fields h hfields => ?_
    · simp [hcells.clean]
    · simp [ofJsonWith?, h, record?_object hfields.clean,
        required_respelled hfields "cycle" rfl hcells]
  | exception text =>
    refine ReadsAs.tagged variant? (hvariant _) rfl fun doc fields h hfields => ?_
    simp [ofJsonWith?, h, record?_object hfields.clean,
      required_respelled hfields "message" rfl (.text text)]
  | ancestorFailed ancestor =>
    have hancestor := CellId.readsAs he
    refine ReadsAs.tagged variant? (hvariant _) rfl fun doc fields h hfields => ?_
    simp [ofJsonWith?, h, record?_object hfields.clean,
      required_respelled hfields "ancestor" rfl hancestor]
  | ancestorBlocked ancestor =>
    have hancestor := CellId.readsAs he
    refine ReadsAs.tagged variant? (hvariant _) rfl fun doc fields h hfields => ?_
    simp [ofJsonWith?, h, record?_object hfields.clean,
      required_respelled hfields "ancestor" rfl hancestor]

theorem CellError.readsAs {e : CellError} (he : e.InRange) : ReadsAs CellError.ofJson? e.toJson e :=
  CellError.readsAsWith (fun _ => rfl) he

/-- The same inside a message. -/
theorem CellError.partReadsAs {e : CellError} (he : e.InRange) :
    ReadsAs CellError.ofPart? e.toJson e := CellError.readsAsWith (fun _ => rfl) he

/-- What is shown, a display of null being none. -/
def shown : Option Json → Option Json
  | some .null => none
  | display => display

theorem display_readsAs {display : Option Json} (h : ∀ v ∈ display, v.isStandard = true) :
    ReadsAs (nullable? value?) (.ofOption id display) (shown display) := by
  cases display with
  | none => exact .null
  | some v =>
    have hv := ReadsAs.value (h v rfl)
    cases v with
    | null => exact .null
    | _ => exact hv.nonNull (by simp)

namespace Message

/-- Numbers have 64 bits, and values are in standard form. -/
def InRange : Message → Prop
  | .status cell _ => cell.InRange
  | .output cell display _ => cell.InRange ∧ ∀ v ∈ display, v.isStandard = true
  | .failure cell error => cell.InRange ∧ error.InRange
  | .elementValue _ patch => patch.isStandard = true
  | .completion request _ => request < 2 ^ 64
  | .danglingRefs cell _ => cell.InRange
  | .deleted cell => cell.InRange

/-- What a message is when it is read back. -/
def asRead : Message → Message
  | .output cell display cached => .output cell (shown display) cached
  | m => m

theorem readsAs {m : Message} (hm : m.InRange) : ReadsAs Message.ofJson? m.toJson m.asRead := by
  cases m with
  | status cell now =>
    have hcell := CellId.readsAs hm
    have hstatus := CellStatus.partReadsAs now
    refine ReadsAs.tagged text? rfl rfl fun doc fields h hfields => ?_
    simp [ofJson?, h, record?_object hfields.clean, asRead,
      required_respelled hfields "cell" rfl hcell,
      required_respelled hfields "status" rfl hstatus]
  | output cell display cached =>
    have hcell := CellId.readsAs hm.1
    have hdisplay := display_readsAs hm.2
    refine ReadsAs.tagged text? rfl ?_ fun doc fields h hfields => ?_
    · simp [hcell.clean, hdisplay.clean]
    · simp [ofJson?, h, record?_object hfields.clean, asRead,
        required_respelled hfields "cell" rfl hcell,
        optional_respelled hfields "display" rfl hdisplay,
        required_respelled hfields "cached" rfl (.flag cached)]
  | failure cell error =>
    have hcell := CellId.readsAs hm.1
    have herror := CellError.partReadsAs hm.2
    refine ReadsAs.tagged text? rfl ?_ fun doc fields h hfields => ?_
    · simp [hcell.clean, herror.clean]
    · simp [ofJson?, h, record?_object hfields.clean, asRead,
        required_respelled hfields "cell" rfl hcell,
        required_respelled hfields "error" rfl herror]
  | elementValue element patch =>
    have helement : ReadsAs ElementId.ofJson? (.string element.text) element :=
      (ReadsAs.text element.text).map _
    have hpatch := ReadsAs.value hm
    refine ReadsAs.tagged text? rfl ?_ fun doc fields h hfields => ?_
    · simp [hpatch.clean]
    · simp [ofJson?, h, record?_object hfields.clean, asRead,
        required_respelled hfields "element" rfl helement,
        required_respelled hfields "patch" rfl hpatch]
  | completion request names =>
    have hrequest := ReadsAs.natural hm
    have hnames : ReadsAs (nullable? (list? text?)) (.ofOption .strings names) names := by
      cases names with
      | none => exact .null
      | some names => exact (ReadsAs.texts names).nonNull (by simp [Json.strings])
    refine ReadsAs.tagged text? rfl ?_ fun doc fields h hfields => ?_
    · simp [hnames.clean]
    · simp [ofJson?, h, record?_object hfields.clean, asRead,
        required_respelled hfields "request" rfl hrequest,
        optional_respelled hfields "names" rfl hnames]
  | danglingRefs cell names =>
    have hcell := CellId.readsAs hm
    have hnames := ReadsAs.texts names
    refine ReadsAs.tagged text? rfl ?_ fun doc fields h hfields => ?_
    · simp [hcell.clean, hnames.clean]
    · simp [ofJson?, h, record?_object hfields.clean, asRead,
        required_respelled hfields "cell" rfl hcell,
        required_respelled hfields "names" rfl hnames]
  | deleted cell =>
    have hcell := CellId.readsAs hm
    refine ReadsAs.tagged text? rfl rfl fun doc fields h hfields => ?_
    simp [ofJson?, h, record?_object hfields.clean, asRead,
      required_respelled hfields "cell" rfl hcell]

end Message

/-! ## §7. Outputs. -/

namespace CellOutput

/-- Numbers have 64 bits, and values are in standard form. -/
structure InRange (o : CellOutput) : Prop where
  bindings : ∀ name b, o.bindings.get? name = some b → b.InRange
  display : ∀ v ∈ o.display, v.isStandard = true

/-- What an output is when it is read back. -/
def asRead (o : CellOutput) : CellOutput := { o with display := shown o.display }

theorem readsAs {o : CellOutput} (ho : o.InRange) :
    ReadsAs CellOutput.ofJson? o.toJson o.asRead := by
  have hbindings := bindings_readAs ho.bindings
  have hdisplay := display_readsAs ho.display
  refine ReadsAs.record ?_ fun fields h => ?_
  · simp [hbindings.clean, hdisplay.clean]
  · simp [asRead, required_respelled h "bindings" rfl hbindings,
      optional_respelled h "display" rfl hdisplay]

end CellOutput

/-! ## §8. Every written form. -/

/-- The types that have a written form to be read back. -/
inductive WireType where
  | cellSpec
  | cellStatus
  | binding
  | lens
  | elementKind
  | strategy
  | digest
  | error
  | message
  | module
  | traceOp
  | trace
  | output
  | failure
  | origin

namespace WireType

/-- What is written; of a failed run, its message. -/
def Value : WireType → Type
  | .cellSpec => CellSpec
  | .cellStatus => CellStatus
  | .binding => Binding
  | .lens => Lens
  | .elementKind => ElementKind
  | .strategy => Strategy
  | .digest => Digest
  | .error => CellError
  | .message => Message
  | .module => ModuleRef
  | .traceOp => TraceOp
  | .trace => Trace
  | .output => CellOutput
  | .failure => String
  | .origin => Origin

/-- The written form of a value. -/
def write : (t : WireType) → t.Value → Json
  | .cellSpec => CellSpec.toJson
  | .cellStatus => CellStatus.toJson
  | .binding => Binding.toJson
  | .lens => Lens.toJson
  | .elementKind => ElementKind.toJson
  | .strategy => Strategy.toJson
  | .digest => Digest.toJson
  | .error => CellError.toJson
  | .message => Message.toJson
  | .module => ModuleRef.toJson
  | .traceOp => TraceOp.toJson
  | .trace => Trace.toJson
  | .output => CellOutput.toJson
  | .failure => failureToJson
  | .origin => Origin.toJson

/-- The value that a document stands for. -/
def read : (t : WireType) → Json → Option t.Value
  | .cellSpec => CellSpec.ofJson?
  | .cellStatus => CellStatus.ofJson?
  | .binding => Binding.ofJson?
  | .lens => Lens.ofJson?
  | .elementKind => ElementKind.ofJson?
  | .strategy => Strategy.ofJson?
  | .digest => Digest.ofJson?
  | .error => CellError.ofJson?
  | .message => Message.ofJson?
  | .module => ModuleRef.ofJson?
  | .traceOp => TraceOp.ofJson?
  | .trace => Trace.ofJson?
  | .output => CellOutput.ofJson?
  | .failure => failureOfJson?
  | .origin => Origin.ofJson?

/-- Whether every part of a value is in the range of its type: numbers have 64 bits, digests
thirty-two bytes, and the values of programs are in standard form. -/
def InRange : (t : WireType) → t.Value → Prop
  | .cellSpec => fun (s : CellSpec) => s.id.InRange
  | .cellStatus => fun _ => True
  | .binding => Binding.InRange
  | .lens => Lens.InRange
  | .elementKind => fun _ => True
  | .strategy => fun (s : Strategy) => s.digest.InRange
  | .digest => Digest.InRange
  | .error => CellError.InRange
  | .message => Message.InRange
  | .module => fun _ => True
  | .traceOp => TraceOp.InRange
  | .trace => fun (t : Trace) => ∀ op ∈ t, op.InRange
  | .output => CellOutput.InRange
  | .failure => fun _ => True
  | .origin => Origin.InRange

/-- The value as it is read back: the same, but for a display of null. -/
def asRead : (t : WireType) → t.Value → t.Value
  | .message => Message.asRead
  | .output => CellOutput.asRead
  | _ => id

theorem readsAs : (t : WireType) → (a : t.Value) → t.InRange a →
    ReadsAs t.read (t.write a) (t.asRead a)
  | .cellSpec, _, h => CellSpec.readsAs h
  | .cellStatus, s, _ => CellStatus.readsAs s
  | .binding, _, h => Binding.readsAs h
  | .lens, _, h => Lens.readsAs h
  | .elementKind, k, _ => ElementKind.readsAs k
  | .strategy, _, h => Strategy.readsAs h
  | .digest, _, h => Digest.readsAs h
  | .error, _, h => CellError.readsAs h
  | .message, _, h => Message.readsAs h
  | .module, m, _ => ModuleRef.readsAs m
  | .traceOp, _, h => TraceOp.readsAs h
  | .trace, _, h => Trace.readsAs h
  | .output, _, h => CellOutput.readsAs h
  | .failure, m, _ => failure_readsAs m
  | .origin, _, h => Origin.readsAs h

end WireType

/-! ## §9. Outputs in the cache. -/

namespace Kernel

variable [HashFunction] {κ σ : Type} {cell : CellId} {strategy : Strategy} {o : CellOutput}

omit [HashFunction] in
/-- An entry that holds the written form of an output, in any spelling, is served as that output. -/
theorem cachedOutput_of_hit (k : Kernel κ σ) {e : CacheEntry}
    (hhit : k.session.cache.hit? (.ofCell cell) strategy = some e)
    (hresult : e.result.Respells o.toJson) (ho : o.InRange) :
    (k.cachedOutput cell strategy).1 = some o.asRead := by
  obtain ⟨stats, hlookup⟩ := Cache.lookupOrMiss_eq k.session.cache (.ofCell cell) strategy
  unfold cachedOutput
  rw [hlookup, hhit]
  exact (CellOutput.readsAs ho).reads e.result hresult

/-- What is kept of a pure run with plain outputs is their written form. -/
theorem hit?_keepResult (k : Kernel κ σ) {frame : Frame} (hpure : frame.isPure = true)
    (hplain : o.isPlain = true) :
    ∃ e, (k.keepResult cell (some strategy) (some frame) o).session.cache.hit? (.ofCell cell)
      strategy = some e ∧ e.result = o.toJson := by
  have hboth : (frame.isPure && o.isPlain) = true := Bool.and_eq_true_iff.2 ⟨hpure, hplain⟩
  refine ⟨⟨strategy, o.toJson, Effect.digestOf frame.effects, k.session.cache.clock⟩, ?_, rfl⟩
  unfold keepResult
  dsimp only
  rw [if_pos hboth]
  exact Cache.hit?_store_self ..

end Kernel

/-- **Written forms round-trip.**  Whatever the type and the value, reading the written form gives
the value back, up to a display of null: with the fields as they are declared, with keys in order,
or in whatever order.  Hence an output that a pure run gave is served with its bindings from then
on, as long as its entry is found. -/
theorem wireForms_roundTrip [HashFunction] {κ σ : Type} :
    (∀ (t : WireType) (a : t.Value), t.InRange a →
      t.read (t.write a) = some (t.asRead a) ∧
      t.read (t.write a).normal = some (t.asRead a) ∧
      ∀ doc, doc.Respells (t.write a) → t.read doc = some (t.asRead a)) ∧
    ∀ (k k' : Kernel κ σ) (cell : CellId) (strategy : Strategy) (frame : Frame) (o : CellOutput),
      frame.isPure = true → o.isPlain = true → o.InRange →
      k'.session.cache.hit? (.ofCell cell) strategy =
        (k.keepResult cell (some strategy) (some frame) o).session.cache.hit? (.ofCell cell)
          strategy →
      ∃ o', (k'.cachedOutput cell strategy).1 = some o' ∧ o'.bindings = o.bindings ∧
        o'.display = shown o.display := by
  constructor
  · intro t a ha
    have h := t.readsAs a ha
    exact ⟨h.self, h.normal, h.reads⟩
  · intro k k' cell strategy frame o hpure hplain ho hsame
    obtain ⟨e, hhit, hresult⟩ := k.hit?_keepResult hpure hplain
    have hrespells : e.result.Respells o.toJson := by
      rw [hresult]
      exact .refl (CellOutput.readsAs ho).clean
    exact ⟨o.asRead, k'.cachedOutput_of_hit (hsame.trans hhit) hrespells ho, rfl, rfl⟩

/-- An error inside a message, a module inside a module, and an output that shows null and binds a
name to it, which is served as one that shows nothing. -/
theorem nestedForms_roundTrip :
    let _ := Sha256.hashFunction
    let m : Message := .failure ⟨1⟩ (.multipleDefinition "x" [⟨0⟩, ⟨2⟩])
    let n : ModuleRef := { name := "a", imports := [{ name := "b", localName := some "c" }] }
    let o : CellOutput :=
      { bindings := Table.empty.insert "x" (.value .null), display := some .null }
    let frame : Frame := { cell := ⟨0⟩, kind := .run }
    let k : Kernel Unit Unit := { session := { own := () } }
    let k' := k.keepResult ⟨0⟩ (some (.content .zero)) (some frame) o
    m.InRange ∧ o.InRange ∧ frame.isPure = true ∧ o.isPlain = true ∧
      Message.ofJson? m.toJson.normal = some m ∧ ModuleRef.ofJson? n.toJson = some n ∧
      CellOutput.ofJson? o.toJson = some { o with display := none } ∧
      ∃ o', (k'.cachedOutput ⟨0⟩ (.content .zero)).1 = some o' ∧ o'.bindings = o.bindings ∧
        o'.display = none := by
  intro _ m n o frame k k'
  have hm : m.InRange := by
    refine ⟨(by decide : 1 < 2 ^ 64), fun id hid => ?_⟩
    show id.number < 2 ^ 64
    have hcases : id = ⟨0⟩ ∨ id = ⟨2⟩ := by simpa using hid
    rcases hcases with rfl | rfl <;> decide
  have ho : o.InRange := by
    refine ⟨fun name b hb => ?_, fun v hv => ?_⟩
    · rw [Table.get?_insert] at hb
      split at hb
      · obtain rfl := Option.some.inj hb
        rfl
      · cases hb
    · obtain rfl := Option.some.inj hv
      rfl
  obtain ⟨hforms, hcached⟩ := wireForms_roundTrip (κ := Unit) (σ := Unit)
  obtain ⟨-, hmessage, -⟩ := hforms .message m hm
  obtain ⟨hmodule, -, -⟩ := hforms .module n trivial
  obtain ⟨houtput, -, -⟩ := hforms .output o ho
  obtain ⟨o', hserved, hbindings, hdisplay⟩ :=
    hcached k k' ⟨0⟩ (.content .zero) frame o rfl rfl ho rfl
  exact ⟨hm, ho, rfl, rfl, hmessage, hmodule, houtput, o', hserved, hbindings, hdisplay⟩

end Notebook
