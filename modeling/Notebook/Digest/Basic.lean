/-
  Notebook.Digest.Basic — digests: byte strings that stand for longer ones.

  Digests name what the cache holds.  They are ordered by their bytes and written in hexadecimal.
  The library does not fix the hash function: everything that hashes takes a `HashFunction`, so
  that "there are no collisions" can be said of it as injectivity.  In use it is SHA-256, whose
  digests have thirty-two bytes, and digests that are read from outside must have that length.
-/
import Notebook.Json.Printer

namespace Notebook

open Std

/-! ## §1. Digests. -/

/-- A byte string that stands for a longer one. -/
structure Digest where
  bytes : List UInt8
deriving DecidableEq, Repr

namespace Digest

/-- Digests are compared byte by byte from the first on. -/
instance : Ord Digest := ⟨compareOn Digest.bytes⟩

instance : TransOrd Digest := inferInstanceAs (TransCmp (compareOn Digest.bytes))

instance : LawfulEqOrd Digest where
  eq_of_compare {a b} h := by
    have : a.bytes = b.bytes := LawfulEqOrd.eq_of_compare (α := List UInt8) h
    cases a; cases b; simp_all

/-- The length of a digest that comes from outside. -/
def width : Nat := 32

/-- The digest of zeros, which stands for "nothing was recorded". -/
def zero : Digest := ⟨List.replicate width 0⟩

instance : Inhabited Digest := ⟨zero⟩

/-- The digest with the given bytes, when there are thirty-two of them. -/
def ofBytes? (bytes : List UInt8) : Option Digest :=
  if bytes.length = width then some ⟨bytes⟩ else none

/-- The two hexadecimal digits of a byte, in lower case. -/
def hexByte (b : UInt8) : List Char := [Nat.digitChar (b.toNat / 16), Nat.digitChar (b.toNat % 16)]

/-- The hexadecimal digits, in lower case. -/
def hex (d : Digest) : String := String.ofList (d.bytes.flatMap hexByte)

/-- A short form that shows the first six bytes. -/
def summary (d : Digest) : String :=
  "Digest(" ++ String.ofList ((d.bytes.take 6).flatMap hexByte) ++ "…)"

end Digest

/-! ## §2. Hash functions. -/

/-- A function from messages to digests. -/
class HashFunction where
  /-- The digest of a message. -/
  digest : List UInt8 → Digest

/-- The UTF-8 bytes of a text. -/
def utf8 (s : String) : List UInt8 := s.toUTF8.data.toList

namespace Digest

variable [HashFunction]

/-- The digest of a byte string. -/
def ofMessage (message : List UInt8) : Digest := HashFunction.digest message

/-- The digest of the UTF-8 bytes of a text. -/
def ofText (s : String) : Digest := ofMessage (utf8 s)

/-- The digest of a value: the digest of its compact text. -/
def ofValue (v : Json) : Digest := ofText v.text

end Digest

end Notebook
