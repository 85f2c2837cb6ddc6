import Quasiquote.Json.Reader
import Quasiquote.Text.Utf8

namespace Quasiquote

/-!
# JSON in bytes

A file consists of bytes, and not all bytes are characters.  A byte that belongs to no character
spoils the string that it stands in, which may go unnoticed if nobody looks at the string;
anywhere else the file is no JSON.

* `Utf8.firstChar?` — the character that bytes begin with;
* `Json.textOf` — a text that is read as the bytes are;
* `Json.textOf_bytes` — bytes that are those of a text are read as the text.
-/

namespace Utf8

/-- The character that bytes begin with, if they begin with one. -/
def firstChar? (bs : List UInt8) : Option Char := bs.toByteArray.utf8DecodeChar? 0

theorem bytesOfChar_eq (c : Char) : bytesOfChar c = String.utf8EncodeChar c := by
  have hc : c.toNat < 0x110000 := by
    have hvalid := c.valid
    simp only [UInt32.isValidChar, Nat.isValidChar] at hvalid
    show c.val.toNat < _
    omega
  have hval : c.val.toNat = c.toNat := rfl
  simp only [bytesOfChar, String.utf8EncodeChar, hval]
  generalize c.toNat = n at hc
  -- the four lengths, where the leading digit of the last form never overflows
  by_cases h₁ : n < 0x80
  · rw [if_pos h₁, if_pos (by omega)]
  rw [if_neg h₁, if_neg (by omega : ¬n ≤ 127)]
  by_cases h₂ : n < 0x800
  · rw [if_pos h₂, if_pos (by omega), Nat.mod_eq_of_lt (by omega : n / 64 < 32)]
    simp only [Nat.add_comm]
  rw [if_neg h₂, if_neg (by omega : ¬n ≤ 2047)]
  by_cases h₃ : n < 0x10000
  · rw [if_pos h₃, if_pos (by omega), Nat.mod_eq_of_lt (by omega : n / 4096 < 16)]
    simp only [Nat.add_comm]
  · rw [if_neg h₃, if_neg (by omega), Nat.mod_eq_of_lt (by omega : n / 262144 < 8)]
    simp only [Nat.add_comm]

theorem length_bytesOfChar (c : Char) : (bytesOfChar c).length = c.utf8Size := by
  rw [bytesOfChar_eq, String.length_utf8EncodeChar]

/-- The bytes of a character are read as the character. -/
theorem firstChar?_bytesOfChar (c : Char) (bs : List UInt8) :
    firstChar? (bytesOfChar c ++ bs) = some c := by
  rw [firstChar?, bytesOfChar_eq, List.toByteArray_append]
  exact ByteArray.utf8DecodeChar?_utf8EncodeChar_append

end Utf8

namespace Json

/-- Where in a text a reader stands. -/
inductive Zone where
  | outside
  /-- In a string. -/
  | inside
  /-- In a string, behind a backslash. -/
  | escaped

/-- Where a reader stands behind a character. -/
def Zone.after : Zone → Char → Zone
  | .outside, '"' => .inside
  | .inside, '"' => .outside
  | .inside, '\\' => .escaped
  | .escaped, _ => .inside
  | z, _ => z

/-- What is read in place of a byte that belongs to no character: half of a character in a string,
    and else a character that has no place in JSON. -/
def Zone.stray : Zone → List Char
  | .inside => "\\ud800.".toList
  | _ => [Char.ofNat 0]

/-- A text that is read as the given bytes are. -/
def textOf (z : Zone) : List UInt8 → List Char
  | [] => []
  | b :: bs =>
    match Utf8.firstChar? (b :: bs) with
    | some c => c :: textOf (z.after c) (bs.drop (c.utf8Size - 1))
    | none => z.stray ++ textOf z bs
termination_by bs => bs.length
decreasing_by
  · simp only [List.length_drop, List.length_cons]; omega
  · exact Nat.lt_add_one _

/-- The text that a file is read as. -/
def ofBytes (bs : List UInt8) : String := String.ofList (textOf .outside bs)

/-- The bytes of a text are read as the text. -/
theorem textOf_bytes (z : Zone) (cs : List Char) : textOf z (Utf8.bytes cs) = cs := by
  induction cs generalizing z with
  | nil => rw [Utf8.bytes, List.flatMap_nil, textOf]
  | cons c cs ih =>
    have hlength := Utf8.length_bytesOfChar c
    have hpos := c.utf8Size_pos
    have hbytes : Utf8.bytes (c :: cs) = Utf8.bytesOfChar c ++ Utf8.bytes cs := rfl
    have hfirst := Utf8.firstChar?_bytesOfChar c (Utf8.bytes cs)
    rw [hbytes]
    revert hlength hfirst
    cases Utf8.bytesOfChar c with
    | nil => intro hlength; simp at hlength; omega
    | cons b bs =>
      intro hlength hfirst
      have hdrop : (bs ++ Utf8.bytes cs).drop (c.utf8Size - 1) = Utf8.bytes cs := by
        rw [← hlength]
        simp
      rw [List.cons_append] at hfirst ⊢
      rw [textOf, hfirst]
      simp only [hdrop, ih]

theorem ofBytes_bytes (text : String) : ofBytes (Utf8.bytes text.toList) = text := by
  rw [ofBytes, textOf_bytes, String.ofList_toList]

end Json

end Quasiquote
