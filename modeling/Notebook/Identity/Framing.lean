/-
  Notebook.Identity.Framing — lists of tagged fields as one message.

  Each field is written as the length of its tag, the tag, the length of its data, and the data;
  lengths take eight bytes, least significant first.  A message opens with a field that names its
  domain, so that messages of different kinds are never alike.
-/
import Notebook.Digest.Basic

namespace Notebook

/-- One field of a framed message. -/
structure Field where
  tag : String
  data : List UInt8

namespace Field

/-- A field that holds a text. -/
def ofText (tag text : String) : Field := ⟨tag, utf8 text⟩

/-- A field that holds a digest. -/
def ofDigest (tag : String) (d : Digest) : Field := ⟨tag, d.bytes⟩

end Field

/-- A length as eight bytes, least significant first. -/
def lengthPrefix (n : Nat) : List UInt8 :=
  (List.range 8).map fun i => UInt8.ofNat (n >>> (8 * i))

/-- Bytes after their length. -/
def framed (bytes : List UInt8) : List UInt8 := lengthPrefix bytes.length ++ bytes

/-- The bytes of one field. -/
def Field.bytes (f : Field) : List UInt8 := framed (utf8 f.tag) ++ framed f.data

/-- The message of a domain and its fields. -/
def frame (domain : String) (fields : List Field) : List UInt8 :=
  (Field.ofText "domain" domain :: fields).flatMap Field.bytes

/-- The digest of a domain and its fields. -/
def Digest.ofFields [HashFunction] (domain : String) (fields : List Field) : Digest :=
  .ofMessage (frame domain fields)

end Notebook
