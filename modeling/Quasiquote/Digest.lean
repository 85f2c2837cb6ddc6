import Quasiquote.Text.Utf8

namespace Quasiquote

/-!
# SHA-256 — the checksum of units

A message is padded to blocks of sixty-four bytes.  Every block is mixed into a
state of eight words, and the last state is the digest.

* `Digest.pad` — the blocks of a message;
* `Digest.absorb` — one block mixed into a state;
* `Digest.sha256` — the digest of a message, in lower-case hexadecimal.
-/

namespace Digest

/-- The round constants: fractions of the cube roots of the first primes. -/
def roundConstants : List UInt32 := [
  0x428a2f98, 0x71374491, 0xb5c0fbcf, 0xe9b5dba5, 0x3956c25b, 0x59f111f1, 0x923f82a4, 0xab1c5ed5,
  0xd807aa98, 0x12835b01, 0x243185be, 0x550c7dc3, 0x72be5d74, 0x80deb1fe, 0x9bdc06a7, 0xc19bf174,
  0xe49b69c1, 0xefbe4786, 0x0fc19dc6, 0x240ca1cc, 0x2de92c6f, 0x4a7484aa, 0x5cb0a9dc, 0x76f988da,
  0x983e5152, 0xa831c66d, 0xb00327c8, 0xbf597fc7, 0xc6e00bf3, 0xd5a79147, 0x06ca6351, 0x14292967,
  0x27b70a85, 0x2e1b2138, 0x4d2c6dfc, 0x53380d13, 0x650a7354, 0x766a0abb, 0x81c2c92e, 0x92722c85,
  0xa2bfe8a1, 0xa81a664b, 0xc24b8b70, 0xc76c51a3, 0xd192e819, 0xd6990624, 0xf40e3585, 0x106aa070,
  0x19a4c116, 0x1e376c08, 0x2748774c, 0x34b0bcb5, 0x391c0cb3, 0x4ed8aa4a, 0x5b9cca4f, 0x682e6ff3,
  0x748f82ee, 0x78a5636f, 0x84c87814, 0x8cc70208, 0x90befffa, 0xa4506ceb, 0xbef9a3f7, 0xc67178f2]

/-- Eight words. -/
structure State where
  a : UInt32
  b : UInt32
  c : UInt32
  d : UInt32
  e : UInt32
  f : UInt32
  g : UInt32
  h : UInt32

/-- The state before the first block. -/
def initial : State :=
  ⟨0x6a09e667, 0xbb67ae85, 0x3c6ef372, 0xa54ff53a, 0x510e527f, 0x9b05688c, 0x1f83d9ab, 0x5be0cd19⟩

/-- Rotation to the right. -/
def rotate (x : UInt32) (n : UInt32) : UInt32 := (x >>> n) ||| (x <<< (32 - n))

/-- The big-endian bytes of a number, `n` of them. -/
def bigEndian (n value : Nat) : List UInt8 :=
  (List.range n).map fun i => (value / Nat.pow 256 (n - 1 - i) % 256).toUInt8

/-- The word of four big-endian bytes. -/
def wordOf (a b c d : UInt8) : UInt32 :=
  (a.toUInt32 <<< 24) ||| (b.toUInt32 <<< 16) ||| (c.toUInt32 <<< 8) ||| d.toUInt32

/-- The message with a one bit, zeros, and its length in bits behind it. -/
def pad (message : List UInt8) : List UInt8 :=
  let n := message.length
  let zeros := (119 - n % 64) % 64
  message ++ 0x80 :: (List.replicate zeros 0 ++ bigEndian 8 (8 * n))

/-- Bytes taken in fours. -/
def words : List UInt8 → List UInt32
  | a :: b :: c :: d :: rest => wordOf a b c d :: words rest
  | _ => []

/-- Extends the sixteen words of a block, given newest first, by `n` more. -/
def extend : Nat → List UInt32 → List UInt32
  | 0, ws => ws
  | n + 1, ws =>
    let back := fun i => ws.getD (i - 1) 0
    let x := back 15
    let y := back 2
    let s := rotate x 7 ^^^ rotate x 18 ^^^ (x >>> 3)
    let t := rotate y 17 ^^^ rotate y 19 ^^^ (y >>> 10)
    extend n ((back 16 + s + back 7 + t) :: ws)

/-- One round. -/
def round (s : State) (kw : UInt32 × UInt32) : State :=
  let s₁ := rotate s.e 6 ^^^ rotate s.e 11 ^^^ rotate s.e 25
  let choice := (s.e &&& s.f) ^^^ (~~~s.e &&& s.g)
  let t₁ := s.h + s₁ + choice + kw.1 + kw.2
  let s₀ := rotate s.a 2 ^^^ rotate s.a 13 ^^^ rotate s.a 22
  let majority := (s.a &&& s.b) ^^^ (s.a &&& s.c) ^^^ (s.b &&& s.c)
  ⟨t₁ + (s₀ + majority), s.a, s.b, s.c, s.d + t₁, s.e, s.f, s.g⟩

/-- Mixes the words of one block into a state. -/
def absorb (s : State) (block : List UInt32) : State :=
  let ws := (extend 48 block.reverse).reverse
  let t := (roundConstants.zip ws).foldl round s
  ⟨s.a + t.a, s.b + t.b, s.c + t.c, s.d + t.d, s.e + t.e, s.f + t.f, s.g + t.g, s.h + t.h⟩

/-- Mixes blocks of sixteen words into a state; `n` bounds their number. -/
def absorbAll (s : State) : Nat → List UInt32 → State
  | 0, _ => s
  | n + 1, ws => if ws.isEmpty then s else absorbAll (absorb s (ws.take 16)) n (ws.drop 16)

/-- Two hexadecimal digits to a byte. -/
def hexByte (b : UInt8) : List Char :=
  let digit := fun (n : Nat) =>
    if n < 10 then Char.ofNat ('0'.toNat + n) else Char.ofNat ('a'.toNat + (n - 10))
  [digit (b.toNat / 16), digit (b.toNat % 16)]

/-- The digest of a message. -/
def sha256 (message : List UInt8) : String :=
  let ws := words (pad message)
  let s := absorbAll initial (ws.length / 16 + 1) ws
  String.ofList
    (([s.a, s.b, s.c, s.d, s.e, s.f, s.g, s.h].flatMap fun w => bigEndian 4 w.toNat).flatMap
      hexByte)

/-- The digest of a text. -/
def ofText (text : String) : String := sha256 (Utf8.bytes text.toList)

end Digest

end Quasiquote
