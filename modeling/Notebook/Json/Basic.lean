/-
  Notebook.Json.Basic — JSON values.

  Numbers are integers in the range of 64 bits, signed or unsigned, and doubles; the two kinds stay
  apart.  An object is a list of fields.  `Json.normal` is the value an object text stands for: keys
  in increasing order, each once, the last of several equal keys counting.  Every value that the
  library stores is readable and in normal form; documents that are being read need not be.
-/
import Notebook.Table
import Notebook.Json.Double

namespace Notebook

/-! ## §1. Values. -/

/-- A JSON value, or a JSON document as written. -/
inductive Json where
  | null
  | bool (value : Bool)
  | int (value : Int)
  | double (value : Double)
  | string (value : String)
  | array (items : List Json)
  | object (fields : List (String × Json))
  /-- A well-formed part of a document that stands for no value: a number out of range, a text with
  an unpaired surrogate, or something nested too deep.  It does no harm where nobody reads it. -/
  | unreadable
deriving Inhabited

namespace Json

/-- A natural number as a value. -/
def nat (n : Nat) : Json := .int n

/-- The strings of a list as an array. -/
def strings (items : List String) : Json := .array (items.map .string)

/-- An optional value, absence written as null. -/
def ofOption {α : Type} (write : α → Json) : Option α → Json
  | some a => write a
  | none => .null

/-- Whether an integer can be written as one: from -2^63 up to 2^64 - 1. -/
def isWord (n : Int) : Bool :=
  decide (-(Nat.pow 2 63 : Nat) ≤ n) && decide (n < (Nat.pow 2 64 : Nat))

/-- The field of an object. -/
def field? (key : String) : Json → Option Json
  | .object fields => Entries.find? key fields
  | _ => none

/-! ## §2. Readable documents. -/

mutual

/-- Whether every part of a document stands for a value. -/
def isReadable : Json → Bool
  | .array items => areReadable items
  | .object fields => haveReadable fields
  | .unreadable => false
  | .null => true
  | .bool _ => true
  | .int _ => true
  | .double _ => true
  | .string _ => true

/-- Whether all items of an array are readable. -/
def areReadable : List Json → Bool
  | [] => true
  | item :: rest => isReadable item && areReadable rest

/-- Whether all fields of an object have readable values. -/
def haveReadable : List (String × Json) → Bool
  | [] => true
  | (_, value) :: rest => isReadable value && haveReadable rest

end

/-! ## §3. Normal form. -/

mutual

/-- Puts the keys of every object in order, each once; the last of several equal keys counts. -/
def normal : Json → Json
  | .array items => .array (normalItems items)
  | .object fields => .object (normalFields fields [])
  | .null => .null
  | .bool b => .bool b
  | .int n => .int n
  | .double d => .double d
  | .string s => .string s
  | .unreadable => .unreadable

/-- Normalises the items of an array. -/
def normalItems : List Json → List Json
  | [] => []
  | item :: rest => normal item :: normalItems rest

/-- Normalises fields and writes them, in turn, into `done`. -/
def normalFields : List (String × Json) → List (String × Json) → List (String × Json)
  | [], done => done
  | (key, value) :: rest, done => normalFields rest (Entries.insert key (normal value) done)

end

/-! ## §4. Equality. -/

mutual

/-- The equality of values: doubles compare as numbers, so that both zeros are equal, and an
integer never equals a double.  What stands for no value equals nothing. -/
def same : Json → Json → Bool
  | .null, .null => true
  | .bool a, .bool b => a == b
  | .int a, .int b => a == b
  | .double a, .double b => a.same b
  | .string a, .string b => a == b
  | .array a, .array b => sameItems a b
  | .object a, .object b => sameFields a b
  | _, _ => false

/-- Item by item. -/
def sameItems : List Json → List Json → Bool
  | [], [] => true
  | a :: as, b :: bs => same a b && sameItems as bs
  | _, _ => false

/-- Field by field, keys included. -/
def sameFields : List (String × Json) → List (String × Json) → Bool
  | [], [] => true
  | (k, a) :: as, (l, b) :: bs => k == l && same a b && sameFields as bs
  | _, _ => false

end

end Json

end Notebook
