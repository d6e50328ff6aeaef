/-
  Notebook.Json.Parser — reading JSON text.

  `Json.parse?` accepts one value between blanks and nothing else.  The document comes back as
  written: fields in their order, repeated keys included, and parts that stand for no value marked
  as unreadable; arrays and objects are read up to 127 deep.  `Json.read?` accepts the documents
  without such parts and gives their values.  A reader of this file is a function from the remaining
  characters to a result and what is left of them.
-/
import Notebook.Json.Basic

namespace Notebook.Json

/-- A reader: what it found and the characters after it, or nothing when the text is malformed. -/
abbrev Reader (α : Type) := List Char → Option (α × List Char)

/-- Deepest nesting of arrays and objects that are read. -/
def maxDepth : Nat := 127

/-! ## §1. Blanks and digits. -/

/-- The four characters that may stand between tokens. -/
def isBlank (c : Char) : Bool := c == ' ' || c == '\n' || c == '\t' || c == '\r'

/-- Drops the blanks in front. -/
def skipBlanks (cs : List Char) : List Char := cs.dropWhile isBlank

/-- The value of a decimal digit. -/
def digitValue (c : Char) : Nat := c.toNat - '0'.toNat

/-- The value of a hexadecimal digit of either case. -/
def hexValue? (c : Char) : Option Nat :=
  if c.isDigit then some (c.toNat - '0'.toNat)
  else if 'a' ≤ c ∧ c ≤ 'f' then some (c.toNat - 'a'.toNat + 10)
  else if 'A' ≤ c ∧ c ≤ 'F' then some (c.toNat - 'A'.toNat + 10)
  else none

/-- Four hexadecimal digits as one number. -/
def hexUnit? (a b c d : Char) : Option Nat := do
  let a ← hexValue? a
  let b ← hexValue? b
  let c ← hexValue? c
  let d ← hexValue? d
  return ((a * 16 + b) * 16 + c) * 16 + d

/-! ## §2. Strings. -/

/-- Whether a 16-bit unit opens a surrogate pair. -/
def isHighSurrogate (u : Nat) : Bool := decide (0xD800 ≤ u) && decide (u < 0xDC00)

/-- Whether a 16-bit unit closes a surrogate pair. -/
def isLowSurrogate (u : Nat) : Bool := decide (0xDC00 ≤ u) && decide (u < 0xE000)

/-- The character of a surrogate pair. -/
def pairChar (high low : Nat) : Char :=
  Char.ofNat (0x10000 + (high - 0xD800) * 0x400 + (low - 0xDC00))

/-- The character that a one-letter escape stands for. -/
def shortEscape? : Char → Option Char
  | '\"' => some '\"'
  | '\\' => some '\\'
  | '/' => some '/'
  | 'b' => some '\x08'
  | 'f' => some '\x0c'
  | 'n' => some '\n'
  | 'r' => some '\r'
  | 't' => some '\t'
  | _ => none

/-- What was read of a string so far. -/
structure Spelling where
  /-- The characters, the last one first. -/
  done : List Char := []
  /-- The first half of a surrogate pair, when the second has to follow at once. -/
  half : Option Nat := none
  /-- Whether all surrogates before came in pairs. -/
  paired : Bool := true

namespace Spelling

/-- Goes on with a character. -/
def char (s : Spelling) (c : Char) : Spelling := ⟨c :: s.done, none, s.paired && s.half.isNone⟩

/-- Goes on with a 16-bit unit. -/
def unit (s : Spelling) (u : Nat) : Spelling :=
  if isLowSurrogate u then
    match s.half with
    | some high => ⟨pairChar high u :: s.done, none, s.paired⟩
    | none => ⟨s.done, none, false⟩
  else if isHighSurrogate u then ⟨s.done, some u, s.paired && s.half.isNone⟩
  else s.char (Char.ofNat u)

/-- The text that was spelled, unless a surrogate stands alone. -/
def text? (s : Spelling) : Option String :=
  if s.paired && s.half.isNone then some (String.ofList s.done.reverse) else none

end Spelling

/-- The characters up to the closing quote, the opening one being read already.  Control characters
must be escaped. -/
def stringChars (s : Spelling) : Reader Spelling
  | '\"' :: rest => some (s, rest)
  | '\\' :: 'u' :: a :: b :: c :: d :: rest =>
    match hexUnit? a b c d with
    | some u => stringChars (s.unit u) rest
    | none => none
  | '\\' :: c :: rest =>
    match shortEscape? c with
    | some c => stringChars (s.char c) rest
    | none => none
  | c :: rest => if c.toNat < 0x20 then none else stringChars (s.char c) rest
  | [] => none

/-- A string after its opening quote, if it stands for a text. -/
def stringBody : Reader (Option String) := fun cs =>
  (stringChars {} cs).map fun (s, rest) => (s.text?, rest)

/-! ## §3. Numbers. -/

/-- The significand read so far and the power of ten that it counts. -/
structure Decimal where
  significand : Nat
  exponent : Int

/-- The digits of a significand: leading digits are kept while the number stays below 2^64; from
the first that does not fit on, digits only count. -/
def takeDigits : (significand : Nat) → List Char → Nat × List Char
  | significand, c :: rest =>
    let next := significand * 10 + digitValue c
    if next < Nat.pow 2 64 then takeDigits next rest else (significand, c :: rest)
  | significand, [] => (significand, [])

/-- The number of a whole part and a fraction, as a 64-bit significand and a power of ten.  Digits
of the fraction are not read past one that does not fit. -/
def decimalOf (whole fraction : List Char) : Decimal :=
  let (significand, dropped) := takeDigits 0 whole
  let (significand, unread) := takeDigits significand fraction
  ⟨significand, (dropped.length : Int) - (fraction.length - unread.length)⟩

/-- The value of an exponent part, or the sign of one that is beyond 32 bits. -/
inductive Power where
  | exact (value : Int)
  | huge (positive : Bool)

/-- The exponent with the given digits. -/
def powerOf (negative : Bool) (ds : List Char) : Power :=
  let value := ds.foldl (fun n c => n * 10 + digitValue c) 0
  if value < Nat.pow 2 31 then .exact (if negative then -(value : Int) else value)
  else .huge (!negative)

/-- The double with the given sign, significand and power of ten; one too large for its format
cannot be read. -/
def doubleOf (negative : Bool) (significand : Nat) (exponent : Int) : Json :=
  match Double.ofDecimal negative significand exponent with
  | some d => .double d
  | none => .unreadable

/-- The number with the given parts; an integer when it has neither fraction nor exponent and fits
64 bits. -/
def numberOf (negative : Bool) (whole fraction : List Char) (power : Option Power) : Json :=
  let decimal := decimalOf whole fraction
  match power, fraction with
  | none, [] =>
    let n : Int := if negative then -(decimal.significand : Int) else decimal.significand
    if decimal.exponent = 0 && isWord n && !(negative && decimal.significand == 0) then .int n
    else doubleOf negative decimal.significand decimal.exponent
  | none, _ => doubleOf negative decimal.significand decimal.exponent
  | some (.exact p), _ => doubleOf negative decimal.significand (decimal.exponent + p)
  | some (.huge positive), _ =>
    if positive && decimal.significand != 0 then .unreadable
    else .double (Double.zero.withSign negative)

/-- The digits of an exponent, after its letter. -/
def exponentPart (cs : List Char) : Option (Power × List Char) :=
  let (negative, cs) := match cs with
    | '+' :: rest => (false, rest)
    | '-' :: rest => (true, rest)
    | _ => (false, cs)
  let ds := cs.takeWhile Char.isDigit
  if ds.isEmpty then none else some (powerOf negative ds, cs.dropWhile Char.isDigit)

/-- A number, its sign being read already.  A whole part of several digits does not begin with a
zero, and a point is followed by a digit. -/
def number (negative : Bool) : Reader Json := fun cs =>
  let whole := cs.takeWhile Char.isDigit
  let cs := cs.dropWhile Char.isDigit
  if whole.isEmpty || (whole.head? == some '0' && whole.length != 1) then none else
  let fraction : Option (List Char × List Char) := match cs with
    | '.' :: rest =>
      let ds := rest.takeWhile Char.isDigit
      if ds.isEmpty then none else some (ds, rest.dropWhile Char.isDigit)
    | _ => some ([], cs)
  match fraction with
  | none => none
  | some (fraction, 'e' :: rest) | some (fraction, 'E' :: rest) =>
    match exponentPart rest with
    | none => none
    | some (power, rest) => some (numberOf negative whole fraction (some power), rest)
  | some (fraction, rest) => some (numberOf negative whole fraction none, rest)

/-! ## §4. Scalars. -/

/-- A text, or what stands in its place. -/
def ofText? : Option String → Json
  | some s => .string s
  | none => .unreadable

/-- A value that is neither an array nor an object. -/
def scalar : Reader Json
  | 'n' :: 'u' :: 'l' :: 'l' :: rest => some (.null, rest)
  | 't' :: 'r' :: 'u' :: 'e' :: rest => some (.bool true, rest)
  | 'f' :: 'a' :: 'l' :: 's' :: 'e' :: rest => some (.bool false, rest)
  | '\"' :: rest => (stringBody rest).map fun (s, rest) => (ofText? s, rest)
  | '-' :: rest => number true rest
  | c :: rest => if c.isDigit then number false (c :: rest) else none
  | [] => none

/-! ## §5. Values too deep to be read. -/

/-- What encloses the place that a reader has come to. -/
inductive Bracket where
  | square
  | curly
deriving DecidableEq

/-- Passes over a key and the colon behind it. -/
def passKey (cs : List Char) : Option (List Char) :=
  match skipBlanks cs with
  | '\"' :: rest =>
    match stringBody rest with
    | some (_, rest) =>
      match skipBlanks rest with
      | ':' :: rest => some rest
      | _ => none
    | none => none
  | _ => none

/-- Passes over what comes first in an array or an object: the key, if there has to be one. -/
def passStart : Bracket → List Char → Option (List Char)
  | .square, cs => some cs
  | .curly, cs => passKey cs

/-- Passes over a value of any depth, and on to the end of everything that encloses it, innermost
first.  `before` tells whether the value is still to come or has just ended.  `limit` is a bound on
the number of steps; each of them but the last one reads a character. -/
def pass : (limit : Nat) → (before : Bool) → (around : List Bracket) → List Char →
    Option (List Char)
  | 0, _, _, _ => none
  | _ + 1, false, [], cs => some cs
  | limit + 1, false, b :: around, cs =>
    match b, skipBlanks cs with
    | .square, ']' :: rest => pass limit false around rest
    | .curly, '\x7d' :: rest => pass limit false around rest
    | _, ',' :: rest =>
      match passStart b rest with
      | some rest => pass limit true (b :: around) rest
      | none => none
    | _, _ => none
  | limit + 1, true, around, cs =>
    match skipBlanks cs with
    | '[' :: rest =>
      match skipBlanks rest with
      | ']' :: rest => pass limit false around rest
      | rest => pass limit true (.square :: around) rest
    | '\x7b' :: rest =>
      match skipBlanks rest with
      | '\x7d' :: rest => pass limit false around rest
      | rest =>
        match passKey rest with
        | some rest => pass limit true (.curly :: around) rest
        | none => none
    | cs =>
      match scalar cs with
      | some (_, rest) => pass limit false around rest
      | none => none

/-- Passes over a value that is nested too deep. -/
def tooDeep (limit : Nat) : Reader Json := fun cs =>
  (pass (limit + 1) true [] cs).map fun rest => (.unreadable, rest)

/-! ## §6. Values. -/

/-- The items of an array from the first item on, up to and with the closing bracket.  `limit` is
a bound on their number. -/
def items (item : Reader Json) : (limit : Nat) → (done : List Json) → Reader (List Json)
  | 0, _ => fun _ => none
  | limit + 1, done => fun cs =>
    match item (skipBlanks cs) with
    | none => none
    | some (value, rest) =>
      match skipBlanks rest with
      | ',' :: rest => items item limit (value :: done) rest
      | ']' :: rest => some ((value :: done).reverse, rest)
      | _ => none

/-- Fields with one more, whose key must be a text. -/
def addField (done : Option (List (String × Json))) (key : Option String) (value : Json) :
    Option (List (String × Json)) := do
  return (← key, value) :: (← done)

/-- An object with the given fields, the last one first, or what stands in its place. -/
def ofFields? : Option (List (String × Json)) → Json
  | some fields => .object fields.reverse
  | none => .unreadable

/-- The object from the first key on, up to and with the closing brace. -/
def fields (item : Reader Json) :
    (limit : Nat) → (done : Option (List (String × Json))) → Reader Json
  | 0, _ => fun _ => none
  | limit + 1, done => fun cs =>
    match skipBlanks cs with
    | '\"' :: rest =>
      match stringBody rest with
      | none => none
      | some (key, rest) =>
        match skipBlanks rest with
        | ':' :: rest =>
          match item (skipBlanks rest) with
          | none => none
          | some (value, rest) =>
            match skipBlanks rest with
            | ',' :: rest => fields item limit (addField done key value) rest
            | '}' :: rest => some (ofFields? (addField done key value), rest)
            | _ => none
        | _ => none
    | _ => none

/-- A value that starts at the first character.  Beyond `depth` levels of nesting it is passed
over.  `limit` is a bound on the number of characters. -/
def value (limit : Nat) : (depth : Nat) → Reader Json
  | 0 => fun cs =>
    match cs with
    | '[' :: _ | '{' :: _ => tooDeep limit cs
    | _ => scalar cs
  | depth + 1 => fun cs =>
    match cs with
    | '[' :: rest =>
      match skipBlanks rest with
      | ']' :: rest => some (.array [], rest)
      | rest => (items (value limit depth) limit [] rest).map fun (vs, rest) => (.array vs, rest)
    | '{' :: rest =>
      match skipBlanks rest with
      | '}' :: rest => some (.object [], rest)
      | rest => fields (value limit depth) limit (some []) rest
    | _ => scalar cs

/-- The document that `source` is the text of. -/
def parse? (source : String) : Option Json :=
  match value source.length maxDepth (skipBlanks source.toList) with
  | some (document, rest) => if (skipBlanks rest).isEmpty then some document else none
  | none => none

/-- The value that `source` is the text of, in normal form. -/
def read? (source : String) : Option Json :=
  (parse? source).bind fun document => if document.isReadable then some document.normal else none

end Notebook.Json
