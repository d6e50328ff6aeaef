/-
  Notebook.Cache.Archive — snapshots as bytes.

  An archive opens with a fixed signature and then lists the version, the number of records and the
  records, field by field.  Numbers are written in groups of seven bits, the lowest first, each
  group but the last marked by the top bit; texts and byte strings follow their length.  Reading
  undoes writing, and refuses bytes that end too early or go on.
-/
import Notebook.Cache.Snapshot

namespace Notebook.Archive

/-! ## §1. Writing. -/

/-- A number in groups of seven bits. -/
def putNat (n : Nat) : List UInt8 :=
  if n < 128 then [UInt8.ofNat n] else UInt8.ofNat (n % 128 + 128) :: putNat (n / 128)
termination_by n
decreasing_by omega

/-- Bytes after their number. -/
def putBytes (bytes : List UInt8) : List UInt8 := putNat bytes.length ++ bytes

/-- A text as its bytes. -/
def putText (s : String) : List UInt8 := putBytes (utf8 s)

/-- The fields of a record. -/
def putRecord (r : CacheRecord) : List UInt8 :=
  putText r.scope ++ putNat r.isPath.toNat ++ putBytes r.digest.bytes ++ putText r.resultText ++
    putBytes r.effects.bytes ++ putNat r.createdAt

/-- What every archive begins with. -/
def signature : List UInt8 := utf8 "notebook cache" ++ [0]

/-- The bytes of a snapshot. -/
def ofSnapshot (s : Snapshot) : List UInt8 :=
  signature ++ putNat s.version ++ putNat s.records.length ++ s.records.flatMap putRecord

/-! ## §2. Reading. -/

/-- A reader of the bytes in front. -/
abbrev Reader (α : Type) := List UInt8 → Option (α × List UInt8)

/-- A number. -/
def getNat : Reader Nat
  | [] => none
  | b :: rest =>
    if b.toNat < 128 then some (b.toNat, rest)
    else (getNat rest).map fun (n, rest) => (b.toNat - 128 + 128 * n, rest)

/-- A byte string. -/
def getBytes : Reader (List UInt8) := fun bytes =>
  match getNat bytes with
  | some (n, rest) => if n ≤ rest.length then some (rest.take n, rest.drop n) else none
  | none => none

/-- A text. -/
def getText : Reader String := fun bytes =>
  match getBytes bytes with
  | some (content, rest) => (String.fromUTF8? ⟨content.toArray⟩).map fun s => (s, rest)
  | none => none

/-- A record. -/
def getRecord : Reader CacheRecord := fun bytes => do
  let (scope, bytes) ← getText bytes
  let (kind, bytes) ← getNat bytes
  let (digest, bytes) ← getBytes bytes
  let (resultText, bytes) ← getText bytes
  let (effects, bytes) ← getBytes bytes
  let (createdAt, bytes) ← getNat bytes
  if kind < 2 then
    return (⟨scope, kind == 1, ⟨digest⟩, resultText, ⟨effects⟩, createdAt⟩, bytes)
  else none

/-- A given number of records. -/
def getRecords : (count : Nat) → Reader (List CacheRecord)
  | 0 => fun bytes => some ([], bytes)
  | count + 1 => fun bytes => do
    let (r, bytes) ← getRecord bytes
    let (rs, bytes) ← getRecords count bytes
    return (r :: rs, bytes)

/-- The snapshot that an archive holds. -/
def toSnapshot? (bytes : List UInt8) : Option Snapshot :=
  if signature.isPrefixOf bytes then do
    let (version, bytes) ← getNat (bytes.drop signature.length)
    let (count, bytes) ← getNat bytes
    let (records, bytes) ← getRecords count bytes
    if bytes.isEmpty then some ⟨version, records⟩ else none
  else none

/-! ## §3. Reading undoes writing. -/

theorem toNat_ofNat_of_lt {n : Nat} (h : n < 256) : (UInt8.ofNat n).toNat = n := by
  rw [UInt8.toNat_ofNat']
  exact Nat.mod_eq_of_lt h

theorem getNat_putNat (n : Nat) (rest : List UInt8) :
    getNat (putNat n ++ rest) = some (n, rest) := by
  fun_induction putNat n with
  | case1 n hsmall =>
    have hbyte := toNat_ofNat_of_lt (n := n) (by omega)
    rw [List.singleton_append, getNat, hbyte, if_pos hsmall]
  | case2 n hlarge ih =>
    have hbyte := toNat_ofNat_of_lt (n := n % 128 + 128) (by omega)
    have hwhole : n % 128 + 128 - 128 + 128 * (n / 128) = n := by omega
    rw [List.cons_append, getNat, hbyte, if_neg (by omega), ih, Option.map_some]
    simp only [hwhole]

theorem getBytes_putBytes (bytes rest : List UInt8) :
    getBytes (putBytes bytes ++ rest) = some (bytes, rest) := by
  rw [putBytes, List.append_assoc, getBytes, getNat_putNat]
  simp

theorem fromUTF8?_utf8 (s : String) : String.fromUTF8? ⟨(utf8 s).toArray⟩ = some s :=
  dif_pos s.isValidUTF8

theorem getText_putText (s : String) (rest : List UInt8) :
    getText (putText s ++ rest) = some (s, rest) := by
  rw [putText, getText, getBytes_putBytes]
  simp only [fromUTF8?_utf8, Option.map_some]

theorem getRecord_putRecord (r : CacheRecord) (rest : List UInt8) :
    getRecord (putRecord r ++ rest) = some (r, rest) := by
  obtain ⟨scope, isPath, digest, resultText, effects, createdAt⟩ := r
  simp only [putRecord, getRecord, List.append_assoc, getText_putText, getNat_putNat,
    getBytes_putBytes, Option.bind_eq_bind, Option.bind_some]
  cases isPath <;> rfl

theorem getRecords_flatMap (records : List CacheRecord) (rest : List UInt8) :
    getRecords records.length (records.flatMap putRecord ++ rest) = some (records, rest) := by
  induction records with
  | nil => rfl
  | cons r later ih =>
    simp only [List.flatMap_cons, List.append_assoc, List.length_cons, getRecords,
      getRecord_putRecord, ih, Option.bind_eq_bind, Option.bind_some]
    rfl

/-- **What is written can be read.** -/
theorem toSnapshot?_ofSnapshot (s : Snapshot) : toSnapshot? (ofSnapshot s) = some s := by
  have hrecords := getRecords_flatMap s.records []
  rw [List.append_nil] at hrecords
  rw [ofSnapshot, List.append_assoc, List.append_assoc]
  have hopens : signature <+: signature ++
      (putNat s.version ++ (putNat s.records.length ++ s.records.flatMap putRecord)) :=
    List.prefix_append _ _
  rw [toSnapshot?, if_pos (List.isPrefixOf_iff_prefix.2 hopens), List.drop_left]
  simp only [getNat_putNat, hrecords, Option.bind_eq_bind, Option.bind_some]
  rfl

end Notebook.Archive
