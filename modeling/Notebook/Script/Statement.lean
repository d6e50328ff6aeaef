/-
  Notebook.Script.Statement — cells written as lists of statements.

  A script is a JSON list; each item is an object whose field `do` names a statement.  Items are
  read one by one when they are come to, so that a script with a bad statement runs up to it.  The
  body of an observer is a list of the same kind.
-/
import Notebook.Session.Program
import Notebook.Wire.Kernel

namespace Notebook.Script

open Wire

/-! ## §1. Values. -/

/-- Where a statement takes a value from. -/
inductive Source where
  /-- What a name stands for. -/
  | reference (name : String)
  /-- A start, and every integer among what the names stand for. -/
  | sum (names : List String) (start : Int)
  /-- A field of the patch that an observer is told; the whole patch when the key is empty. -/
  | patch (key : String)
  | literal (value : Json)

/-- Whether an integer fits 64 bits with a sign. -/
def isSigned (n : Int) : Bool :=
  decide (-(Nat.pow 2 63 : Nat) ≤ n) && decide (n < (Nat.pow 2 63 : Nat))

/-- The integer of a value, if it is one that fits. -/
def integer? : Json → Option Int
  | .int n => if isSigned n then some n else none
  | _ => none

/-- A sum that wraps around at 64 bits. -/
def wrap (n : Int) : Int := Int.bmod n (Nat.pow 2 64)

/-- A text in a field, if there is one. -/
def textAt? (doc : Json) (key : String) : Option String := (doc.field? key).bind text?

/-- Where a value comes from: the first of the ways that is given. -/
def Source.ofJson (doc : Json) : Source :=
  match textAt? doc "from", doc.field? "sum", textAt? doc "patch" with
  | some name, _, _ => .reference name
  | none, some (.array names), _ =>
    .sum (names.filterMap text?) (((doc.field? "add").bind integer?).getD 0)
  | none, _, some key => .patch key
  | none, _, none => .literal ((doc.field? "value").getD .null)

/-! ## §2. Watched paths. -/

/-- What is wanted of a handle. -/
inductive HandleUse where
  | readText
  | readBytes
  | writeText (text : String)
  | pathExists
  | entries
  | walk
  /-- The number of the watch, its path and the cell that watches. -/
  | describe

/-- Reads what is wanted of a handle of either kind. -/
def HandleUse.ofJson? (doc : Json) : Option (WatchKind × HandleUse) := do
  let how ← (doc.field? "how").bind text?
  if (doc.field? "dir").bind flag? = some true then
    match how with
    | "entries" => return (.directory, .entries)
    | "walk" => return (.directory, .walk)
    | "exists" => return (.directory, .pathExists)
    | _ => return (.directory, .describe)
  else
    match how with
    | "read_text" => return (.file, .readText)
    | "read_bytes" => return (.file, .readBytes)
    | "exists" => return (.file, .pathExists)
    | "write_text" => return (.file, .writeText (((doc.field? "text").bind text?).getD ""))
    | _ => return (.file, .describe)

/-! ## §3. Statements. -/

/-- The parent of a new element. -/
inductive ParentRef where
  /-- The element that a name stands for. -/
  | reference (name : String)
  | literal (id : ElementId)

/-- Where in a parent a new element goes. -/
structure Placement where
  parent : ParentRef
  /-- None when the lens that is given cannot be read. -/
  lens : Option Lens

/-- One step of a script. -/
inductive Statement where
  | bind (name : String) (source : Source)
  /-- Binds a name to just what another one stands for. -/
  | bindReference (name reference : String)
  | declare (var : String) (binding : Binding)
  | display (source : Source)
  /-- Binds a name to a description of the request. -/
  | describeInputs (name : String)
  | fail (text : String)
  /-- Fails when a name stands for the expected value; that is bad without a text. -/
  | failIf (reference : String) (expected : Json) (text : Option String)
  | effect (text : String)
  | element (var : Option String) (kind : ElementKind) (placement : Option Placement)
      (source : Source)
  | state (var : Option String) (source : Source)
  | setState (reference : String) (source : Source)
  | model (model : ModelId) (var : Option String)
  | link (child parent : ModelId)
  | observe (model : ModelId) (body : List Json)
  | watch (path : Path) (kind : WatchKind) (var : Option String)
  | watched (reference : String) (kind : WatchKind) (use : HandleUse) (name : Option String)
  | send (event : Event)
  | abort
  /-- Binds a name to a value that is computed once for each key of a scope. -/
  | memoize (scope : ScopeId) (key name : String) (value : Json)
  | log (source : Source)
  | logCurrentCell

/-- The parent of a new element, if there is to be one. -/
def ParentRef.ofJson? (doc : Json) : Option ParentRef :=
  (textAt? doc "parent").map .reference <|>
    ((textAt? doc "parent_id").map fun id => .literal ⟨id⟩)

/-- Where a new element goes, if it is to have a parent. -/
def Placement.ofJson? (doc : Json) : Option Placement :=
  let lens := match doc.field? "lens" with
    | some lens => Lens.ofJson? lens
    | none => some .identity
  (ParentRef.ofJson? doc).map fun parent => ⟨parent, lens⟩

/-- Reads a statement. -/
def Statement.ofJson? (doc : Json) : Option Statement := do
  let get {α : Type} (key : String) (read : Json → Option α) : Option α :=
    (doc.field? key).bind read
  match ← get "do" text? with
  | "bind" => return .bind (← get "name" text?) (Source.ofJson doc)
  | "bind_ref" => return .bindReference (← get "name" text?) (← get "ref" text?)
  | "let" => return .declare (← get "var" text?) (← get "binding" Binding.ofJson?)
  | "display" => return .display (Source.ofJson doc)
  | "inputs" => return .describeInputs (← get "name" text?)
  | "fail" => return .fail (← get "message" text?)
  | "fail_if" =>
    return .failIf (← get "ref" text?) ((get "equals" some).getD .null) (get "message" text?)
  | "effect" => return .effect (← get "text" text?)
  | "element" =>
    return .element (get "var" text?) (← get "kind" ElementKind.ofJson?) (Placement.ofJson? doc)
      (Source.ofJson doc)
  | "state" => return .state (get "var" text?) (Source.ofJson doc)
  | "set_state" => return .setState (← get "ref" text?) (Source.ofJson doc)
  | "model" => return .model (← get "model" ModelId.ofJson?) (get "var" text?)
  | "link" => return .link (← get "child" ModelId.ofJson?) (← get "parent" ModelId.ofJson?)
  | "observe" => return .observe (← get "model" ModelId.ofJson?) (← get "body" (list? some))
  | "watch" =>
    let kind := if get "dir" flag? = some true then WatchKind.directory else .file
    return .watch ⟨← get "path" text?⟩ kind (get "var" text?)
  | "watched" =>
    let (kind, use) ← HandleUse.ofJson? doc
    return .watched (← get "ref" text?) kind use (get "name" text?)
  | "send" => return .send (← get "event" Event.ofJson?)
  | "abort" => return .abort
  | "memo" =>
    return .memoize ⟨← get "scope" text?⟩ (← get "key" text?) (← get "name" text?)
      ((get "value" some).getD .null)
  | "log" => return .log (Source.ofJson doc)
  | "current" => return .logCurrentCell
  | _ => none

/-- Reads the statements of a script, which may stand in a field `body`; they stay unread. -/
def statements? : Json → Option (List Json)
  | .array items => some items
  | doc => (doc.field? "body").bind (list? some)

end Notebook.Script
