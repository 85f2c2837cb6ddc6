namespace Quasiquote

/-!
# Byte lengths of text

Positions in program text count the bytes of its UTF-8 form, while the text
itself is handled character by character.

* `Utf8.length` — the number of bytes of a list of characters;
* `Utf8.take` — the characters that fill a number of bytes;
* `Utf8.bytes` — the bytes themselves.
-/

namespace Utf8

/-- The number of bytes in the UTF-8 form of a text. -/
def length : List Char → Nat
  | [] => 0
  | c :: cs => c.utf8Size + length cs

@[simp] theorem length_nil : length [] = 0 := rfl

@[simp] theorem length_cons (c : Char) (cs : List Char) :
    length (c :: cs) = c.utf8Size + length cs := rfl

theorem length_append (cs ds : List Char) : length (cs ++ ds) = length cs + length ds := by
  induction cs with
  | nil => simp
  | cons c cs ih => simp [ih, Nat.add_assoc]

/-- The characters that make up the first `n` bytes of a text. -/
def take : Nat → List Char → List Char
  | _, [] => []
  | n, c :: cs => if c.utf8Size ≤ n then c :: take (n - c.utf8Size) cs else []

/-- The bytes of one character. -/
def bytesOfChar (c : Char) : List UInt8 :=
  let n := c.toNat
  if n < 0x80 then [n.toUInt8]
  else if n < 0x800 then [(0xC0 + n / 64).toUInt8, (0x80 + n % 64).toUInt8]
  else if n < 0x10000 then
    [(0xE0 + n / 4096).toUInt8, (0x80 + n / 64 % 64).toUInt8, (0x80 + n % 64).toUInt8]
  else
    [(0xF0 + n / 262144).toUInt8, (0x80 + n / 4096 % 64).toUInt8,
      (0x80 + n / 64 % 64).toUInt8, (0x80 + n % 64).toUInt8]

/-- The UTF-8 form of a text. -/
def bytes (cs : List Char) : List UInt8 := cs.flatMap bytesOfChar

end Utf8

end Quasiquote
