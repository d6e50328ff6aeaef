/-
  Notebook.Digest.Sha256 — the SHA-256 hash function on byte strings.

  A message is closed by a one bit, padded with zeros and its length in bits to whole blocks of
  sixty-four bytes, and folded block by block into eight words.  Nothing else in the library looks
  inside this function; `Sha256.hashFunction` is how it is put to use.
-/
import Notebook.Digest.Basic

namespace Notebook

namespace Sha256

/-! ## §1. Constants. -/

/-- The eight starting words: fractions of the square roots of the first primes. -/
def start : Vector UInt32 8 :=
  #v[0x6a09e667, 0xbb67ae85, 0x3c6ef372, 0xa54ff53a, 0x510e527f, 0x9b05688c, 0x1f83d9ab, 0x5be0cd19]

/-- The sixty-four round words: fractions of the cube roots of the first primes. -/
def roundWords : Vector UInt32 64 :=
  #v[0x428a2f98, 0x71374491, 0xb5c0fbcf, 0xe9b5dba5, 0x3956c25b, 0x59f111f1, 0x923f82a4, 0xab1c5ed5,
     0xd807aa98, 0x12835b01, 0x243185be, 0x550c7dc3, 0x72be5d74, 0x80deb1fe, 0x9bdc06a7, 0xc19bf174,
     0xe49b69c1, 0xefbe4786, 0x0fc19dc6, 0x240ca1cc, 0x2de92c6f, 0x4a7484aa, 0x5cb0a9dc, 0x76f988da,
     0x983e5152, 0xa831c66d, 0xb00327c8, 0xbf597fc7, 0xc6e00bf3, 0xd5a79147, 0x06ca6351, 0x14292967,
     0x27b70a85, 0x2e1b2138, 0x4d2c6dfc, 0x53380d13, 0x650a7354, 0x766a0abb, 0x81c2c92e, 0x92722c85,
     0xa2bfe8a1, 0xa81a664b, 0xc24b8b70, 0xc76c51a3, 0xd192e819, 0xd6990624, 0xf40e3585, 0x106aa070,
     0x19a4c116, 0x1e376c08, 0x2748774c, 0x34b0bcb5, 0x391c0cb3, 0x4ed8aa4a, 0x5b9cca4f, 0x682e6ff3,
     0x748f82ee, 0x78a5636f, 0x84c87814, 0x8cc70208, 0x90befffa, 0xa4506ceb, 0xbef9a3f7, 0xc67178f2]

/-! ## §2. Words and blocks. -/

/-- Rotates a word to the right. -/
def rotate (x : UInt32) (n : UInt32) : UInt32 := (x >>> n) ||| (x <<< (32 - n))

/-- The word of four bytes, most significant first. -/
def word (bytes : Array UInt8) (offset : Nat) : UInt32 :=
  let byte (i : Nat) : UInt32 := (bytes.getD (offset + i) 0).toUInt32
  (byte 0 <<< 24) ||| (byte 1 <<< 16) ||| (byte 2 <<< 8) ||| byte 3

/-- A number as eight bytes, most significant first. -/
def lengthBytes (n : Nat) : List UInt8 :=
  (List.range 8).map fun i => UInt8.ofNat (n / Nat.pow 256 (7 - i))

/-- The message with its padding. -/
def padded (message : List UInt8) : Array UInt8 :=
  let zeros := (119 - message.length % 64) % 64
  (message ++ [0x80] ++ List.replicate zeros 0 ++ lengthBytes (8 * message.length)).toArray

/-- The sixty-four scheduled words of the block at `offset`. -/
def schedule (bytes : Array UInt8) (offset : Nat) : Array UInt32 :=
  (List.range 64).foldl (fun w i =>
    if i < 16 then w.push (word bytes (offset + 4 * i)) else
      let a := w.getD (i - 15) 0
      let b := w.getD (i - 2) 0
      let s0 := rotate a 7 ^^^ rotate a 18 ^^^ (a >>> 3)
      let s1 := rotate b 17 ^^^ rotate b 19 ^^^ (b >>> 10)
      w.push (w.getD (i - 16) 0 + s0 + w.getD (i - 7) 0 + s1)) (Array.mkEmpty 64)

/-! ## §3. Rounds. -/

/-- One round: the eight words move on by one place. -/
def round (s : Vector UInt32 8) (key scheduled : UInt32) : Vector UInt32 8 :=
  let s1 := rotate s[4] 6 ^^^ rotate s[4] 11 ^^^ rotate s[4] 25
  let choice := (s[4] &&& s[5]) ^^^ ((~~~ s[4]) &&& s[6])
  let t1 := s[7] + s1 + choice + key + scheduled
  let s0 := rotate s[0] 2 ^^^ rotate s[0] 13 ^^^ rotate s[0] 22
  let majority := (s[0] &&& s[1]) ^^^ (s[0] &&& s[2]) ^^^ (s[1] &&& s[2])
  #v[t1 + (s0 + majority), s[0], s[1], s[2], s[3] + t1, s[4], s[5], s[6]]

/-- Folds the block at `offset` into the state. -/
def block (bytes : Array UInt8) (s : Vector UInt32 8) (offset : Nat) : Vector UInt32 8 :=
  let w := schedule bytes offset
  let t := (List.range 64).foldl (fun t i => round t (roundWords.toArray.getD i 0) (w.getD i 0)) s
  s.zipWith (· + ·) t

/-- The bytes of the final state, most significant first in each word. -/
def output (s : Vector UInt32 8) : Vector UInt8 32 :=
  Vector.ofFn fun i =>
    (s.toArray.getD (i.val / 4) 0 >>> (24 - 8 * UInt32.ofNat (i.val % 4))).toUInt8

/-- The SHA-256 digest of a message. -/
def digest (message : List UInt8) : Digest :=
  let bytes := padded message
  let final := (List.range (bytes.size / 64)).foldl (fun s i => block bytes s (64 * i)) start
  ⟨(output final).toList⟩

/-- SHA-256 as the hash function of the library. -/
abbrev hashFunction : HashFunction := ⟨digest⟩

end Sha256

end Notebook
