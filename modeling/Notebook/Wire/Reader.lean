/-
  Notebook.Wire.Reader — reading typed values out of JSON documents.

  A record is read from an object, whose known fields must not repeat and whose other fields do not
  matter, or from an array of its fields in order.  A choice between variants is written with a tag
  beside the fields (`tagged?`) or with a tag and a content (`adjacent?`).

  A document with an unreadable part is still read when nothing needs that part.  A field that is
  not known is never needed; a variant with its tag beside its fields needs its whole document,
  since its fields are gathered before it is known which they are.
-/
import Notebook.Digest.Basic

namespace Notebook.Wire

/-! ## §1. Plain values. -/

/-- A text. -/
def text? : Json → Option String
  | .string s => some s
  | _ => none

/-- A truth value. -/
def flag? : Json → Option Bool
  | .bool b => some b
  | _ => none

/-- A number from 0 to 2^64 - 1. -/
def natural? : Json → Option Nat
  | .int (.ofNat n) => if n < Nat.pow 2 64 then some n else none
  | _ => none

/-- Any value, in normal form. -/
def value? (doc : Json) : Option Json := if doc.isReadable then some doc.normal else none

/-- A list. -/
def list? {α : Type} (read : Json → Option α) : Json → Option (List α)
  | .array items => items.mapM read
  | _ => none

/-- A set of names. -/
def names? (doc : Json) : Option (OrderedSet String) := (list? text? doc).map OrderedSet.ofList

/-- An object as a table; of two fields with one key the later counts. -/
def table? {α : Type} (read : Json → Option α) : Json → Option (Table String α)
  | .object fields =>
    (fields.mapM fun f => (read f.2).map fun a => (f.1, a)).map Table.ofList
  | _ => none

/-- A value, or null for none. -/
def nullable? {α : Type} (read : Json → Option α) : Json → Option (Option α)
  | .null => some none
  | doc => (read doc).map some

/-- A byte. -/
def byte? (doc : Json) : Option UInt8 :=
  (natural? doc).bind fun n => if n < 256 then some (UInt8.ofNat n) else none

/-- The bytes of a digest. -/
def digest? (doc : Json) : Option Digest := (list? byte? doc).bind Digest.ofBytes?

/-! ## §2. Records. -/

/-- The fields of a record. -/
structure Record where
  fields : List (String × Json)
  /-- Whether they were given in order, without names. -/
  positional : Bool

/-- How often a key occurs. -/
def occurrences (key : String) (fields : List (String × Json)) : Nat :=
  fields.countP fun f => f.1 == key

/-- The record of a document with the given known fields. -/
def record? (known : List String) : Json → Option Record
  | .object fields =>
    if known.all fun key => occurrences key fields ≤ 1 then some ⟨fields, false⟩ else none
  | .array items =>
    if items.length ≤ known.length then some ⟨known.zip items, true⟩ else none
  | _ => none

namespace Record

variable {α : Type}

/-- A field that must be there. -/
def required (r : Record) (key : String) (read : Json → Option α) : Option α :=
  (r.fields.lookup key).bind read

/-- A field that has a value when it is not there. -/
def defaulted (r : Record) (key : String) (default : α) (read : Json → Option α) : Option α :=
  match r.fields.lookup key with
  | some doc => read doc
  | none => some default

/-- A field that is null when it is not there; without names it must be there. -/
def optional (r : Record) (key : String) (read : Json → Option α) : Option (Option α) :=
  match r.fields.lookup key with
  | some doc => nullable? read doc
  | none => if r.positional then none else some none

end Record

/-! ## §3. Variants. -/

/-- A tag that is a name or the number of one of the names. -/
def nameOrNumber? (names : List String) : Json → Option String
  | .string name => some name
  | .int (.ofNat n) => names[n]?
  | _ => none

/-- A variant with its tag beside its fields: the tag, as `variant?` reads it, and a document with
the other fields. -/
def tagged? (tag : String) (variant? : Json → Option String) (doc : Json) :
    Option (String × Json) :=
  if !doc.isReadable then none else
  match doc with
  | .object fields =>
    if occurrences tag fields = 1 then
      ((fields.lookup tag).bind variant?).map fun variant =>
        (variant, .object (fields.filter fun f => f.1 != tag))
    else none
  | .array (variant :: rest) => (variant? variant).map fun variant => (variant, .array rest)
  | _ => none

/-- The rest of a tagged variant without fields. -/
def noFields : Json → Option Unit
  | .object _ => some ()
  | .array [] => some ()
  | _ => none

/-- A variant without content: its name, or an object that gives it null. -/
def variantName? : Json → Option String
  | .string name => some name
  | .object [(name, .null)] => some name
  | _ => none

/-- Like `variantName?`, inside a variant with its tag beside its fields: the object may also give
the name an empty object. -/
def partName? : Json → Option String
  | .object [(name, .object [])] => some name
  | doc => variantName? doc

/-- Whether `key` comes before every other of the given keys. -/
def comesFirst (key : String) (keys : List String) (fields : List (String × Json)) : Bool :=
  (fields.find? fun f => keys.contains f.1).any fun f => f.1 == key

/-- A variant as a tag and a content.  In an array both stand, and the tag is the plain name.  From
an object the content may be missing; one that comes before its tag has to be readable, since it is
not yet known what is needed of it. -/
def adjacent? (tag content : String) : Json → Option (String × Option Json)
  | .object fields =>
    if occurrences tag fields = 1 ∧ occurrences content fields ≤ 1 ∧
        (comesFirst tag [tag, content] fields ∨ (fields.lookup content).all Json.isReadable) then
      ((fields.lookup tag).bind variantName?).map fun variant => (variant, fields.lookup content)
    else none
  | .array [variant, content] => (text? variant).map fun variant => (variant, some content)
  | _ => none

/-- The content of an adjacent variant without content: missing or null. -/
def noContent : Option Json → Option Unit
  | none => some ()
  | some .null => some ()
  | some _ => none

end Notebook.Wire
