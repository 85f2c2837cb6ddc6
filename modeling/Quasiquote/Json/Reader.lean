import Quasiquote.Json.Basic
import Quasiquote.Word

namespace Quasiquote

/-!
# Reading JSON

A text is read character by character.  Numbers without a fraction or an
exponent are integers if they fit into sixty-four bits, and floats otherwise.

A float is computed from at most nineteen or twenty leading digits, those that
fit into sixty-four bits, and one multiplication or division by a power of ten.
So the float that is read may be a neighbour of the one that was written.

* `Json.scale` — the float of a significand and a decimal exponent;
* `Json.number` — reads a number;
* `Json.parse` — reads a whole text.
-/

namespace Json

/-- What a reader leaves of the text. -/
abbrev Rest (α : Type) := Option (α × List Char)

/-- The text after blanks. -/
def skipBlanks (cs : List Char) : List Char :=
  cs.dropWhile fun c => c == ' ' || c == '\n' || c == '\t' || c == '\r'

/-! ### Numbers -/

/-- The float of `significand · 10 ^ exponent`, reached by steps of at most three
    hundred and eight powers of ten.  No result is infinite. -/
def scale (x : Float) (exponent : Int) : Nat → Option Float
  | 0 => none
  | fuel + 1 =>
    if exponent.natAbs ≤ 308 then
      let power := Float.ofScientific 1 false exponent.natAbs
      if 0 ≤ exponent then
        let y := x * power
        if y.isInf then none else some y
      else some (x / power)
    else if x == 0.0 then some x
    else if 0 ≤ exponent then none
    else scale (x / Float.ofScientific 1 false 308) (exponent + 308) fuel

/-- A signed float from its parts. -/
def floatOf (negative : Bool) (significand : Nat) (exponent : Int) : Json :=
  match scale (Float.ofNat significand) exponent (exponent.natAbs / 308 + 2) with
  | some x => .float (if negative then -x else x)
  | none => .unreadable

/-- Adds digits to a significand as long as it fits into sixty-four bits: the
    significand, how many digits were added, and the rest of the text. -/
def addDigits : Nat → Nat → List Char → Nat × Nat × List Char
  | n, count, c :: cs =>
    if c.isDigit && n * 10 + (c.toNat - '0'.toNat) < Word.count then
      addDigits (n * 10 + (c.toNat - '0'.toNat)) (count + 1) cs
    else (n, count, c :: cs)
  | n, count, [] => (n, count, [])

/-- Whether a digit comes next. -/
def digitNext : List Char → Bool
  | c :: _ => c.isDigit
  | [] => false

/-- The number of digits that come next, and the text after them. -/
def skipDigits (cs : List Char) : Nat × List Char :=
  ((cs.takeWhile Char.isDigit).length, cs.dropWhile Char.isDigit)

/-- No exponent reaches this size. -/
def exponentBound : Nat := 0x80000000

/-- Reads the part of a number from its `e` on. -/
def exponentPart (negative : Bool) (significand : Nat) (start : Int) (cs : List Char) :
    Rest Json :=
  let (minus, cs) := match cs with
    | '+' :: cs => (false, cs)
    | '-' :: cs => (true, cs)
    | cs => (false, cs)
  if !digitNext cs then none
  else
    let size := Decimal.natOfDigits (cs.takeWhile Char.isDigit)
    let rest := cs.dropWhile Char.isDigit
    if exponentBound ≤ size then
      if significand ≠ 0 && !minus then some (.unreadable, rest)
      else some (.float (if negative then -0.0 else 0.0), rest)
    else some (floatOf negative significand (if minus then start - size else start + size), rest)

/-- Reads what follows the digits of a number with a fraction. -/
def afterFraction (negative : Bool) (significand : Nat) (exponent : Int) :
    List Char → Rest Json
  | 'e' :: cs | 'E' :: cs => exponentPart negative significand exponent cs
  | cs => some (floatOf negative significand exponent, cs)

/-- Reads the part of a number behind its point.  Digits that no longer fit are
    left out. -/
def fractionPart (negative : Bool) (significand : Nat) (exponent : Int) (cs : List Char) :
    Rest Json :=
  if !digitNext cs then none
  else
    let (n, count, rest) := addDigits significand 0 cs
    afterFraction negative n (exponent - count) (skipDigits rest).2

/-- Reads what follows an integer part of which `dropped` digits did not fit. -/
def afterInteger (negative : Bool) (significand dropped : Nat) : List Char → Rest Json
  | '.' :: cs => fractionPart negative significand dropped cs
  | 'e' :: cs | 'E' :: cs => exponentPart negative significand dropped cs
  | cs =>
    if dropped = 0 && !negative then some (.int significand, cs)
    else if dropped = 0 && significand ≠ 0 && Word.fits (-(significand : Int)) then
      some (.int (-(significand : Int)), cs)
    else some (floatOf negative significand dropped, cs)

/-- Reads a number behind its sign. -/
def unsigned (negative : Bool) : List Char → Rest Json
  | '0' :: cs => if digitNext cs then none else afterInteger negative 0 0 cs
  | cs =>
    if !digitNext cs then none
    else
      let (n, _, rest) := addDigits 0 0 cs
      let (dropped, rest) := skipDigits rest
      afterInteger negative n dropped rest

/-- Reads a number. -/
def number : List Char → Rest Json
  | '-' :: cs => unsigned true cs
  | cs => unsigned false cs

/-! ### Strings -/

/-- The value of a hexadecimal digit. -/
def hexValue (c : Char) : Option Nat :=
  if c.isDigit then some (c.toNat - '0'.toNat)
  else if 'a' ≤ c && c ≤ 'f' then some (c.toNat - 'a'.toNat + 10)
  else if 'A' ≤ c && c ≤ 'F' then some (c.toNat - 'A'.toNat + 10)
  else none

/-- The value of four hexadecimal digits. -/
def hexFour (a b c d : Char) : Option Nat := do
  let a ← hexValue a
  let b ← hexValue b
  let c ← hexValue c
  let d ← hexValue d
  return ((a * 16 + b) * 16 + c) * 16 + d

/-- A string that goes on with a character. -/
def goOn (c : Char) : Rest (Option (List Char)) → Rest (Option (List Char)) :=
  Option.map fun (s, rest) => (s.map (c :: ·), rest)

/-- A string without a value. -/
def spoil : Rest (Option (List Char)) → Rest (Option (List Char)) :=
  Option.map fun (_, rest) => (none, rest)

/-- The character that a backslash and `c` stand for. -/
def escaped? : Char → Option Char
  | '"' => some '"'
  | '\\' => some '\\'
  | '/' => some '/'
  | 'b' => some (Char.ofNat 8)
  | 'f' => some (Char.ofNat 12)
  | 'n' => some '\n'
  | 'r' => some '\r'
  | 't' => some '\t'
  | _ => none

/-- Reads the inside of a string up to its closing quote.  There is no value if one
    half of a character is without the other. -/
def stringBody : List Char → Rest (Option (List Char))
  | '"' :: cs => some (some [], cs)
  | '\\' :: 'u' :: a :: b :: c :: d :: cs =>
    match hexFour a b c d with
    | none => none
    | some n =>
      let next := fun (_ : Unit) => stringBody cs
      if n < 0xD800 || 0xDFFF < n then goOn (Char.ofNat n) (next ())
      else match cs with
        | '\\' :: 'u' :: a :: b :: c :: d :: more =>
          match hexFour a b c d with
          | none => none
          | some m =>
            if n < 0xDC00 && 0xDC00 ≤ m && m ≤ 0xDFFF then
              goOn (Char.ofNat (0x10000 + (n - 0xD800) * 0x400 + (m - 0xDC00)))
                (stringBody more)
            else spoil (next ())
        | _ => spoil (next ())
  | '\\' :: c :: cs => match escaped? c with
    | some c => goOn c (stringBody cs)
    | none => none
  | c :: cs => if c.toNat < 32 || c == '\\' then none else goOn c (stringBody cs)
  | [] => none

/-- Reads a string behind its opening quote. -/
def string (cs : List Char) : Rest (Option String) :=
  (stringBody cs).map fun (s, rest) => (s.map String.ofList, rest)

/-- What was read, unless it has no value. -/
def orUnreadable {α : Type} (f : α → Json) : Rest (Option α) → Rest Json :=
  Option.map fun (a, rest) => ((a.map f).getD .unreadable, rest)

/-- Fields that begin with one more.  They have no value if a name has none. -/
def withField (name : Option String) (v : Json) :
    Rest (Option (List (String × Json))) → Rest (Option (List (String × Json))) :=
  Option.map fun (fs, rest) => (name.bind fun k => fs.map ((k, v) :: ·), rest)

/-! ### Values -/

mutual

/-- Reads a value, `fuel` levels deep. -/
def value : Nat → List Char → Rest Json
  | 0, _ => none
  | fuel + 1, cs =>
    match skipBlanks cs with
    | 'n' :: 'u' :: 'l' :: 'l' :: rest => some (.null, rest)
    | 't' :: 'r' :: 'u' :: 'e' :: rest => some (.bool true, rest)
    | 'f' :: 'a' :: 'l' :: 's' :: 'e' :: rest => some (.bool false, rest)
    | '"' :: rest => orUnreadable .str (string rest)
    | '[' :: rest =>
      match skipBlanks rest with
      | ']' :: rest => some (.arr [], rest)
      | rest => (items fuel rest).map fun (vs, rest) => (.arr vs, rest)
    | '\x7b' :: rest =>
      match skipBlanks rest with
      | '\x7d' :: rest => some (.obj [], rest)
      | rest => orUnreadable .obj (fields fuel rest)
    | rest => number rest

/-- Reads the entries of an array, of which there is at least one, and its
    closing bracket. -/
def items : Nat → List Char → Rest (List Json)
  | 0, _ => none
  | fuel + 1, cs =>
    match value fuel cs with
    | none => none
    | some (v, rest) =>
      match skipBlanks rest with
      | ']' :: rest => some ([v], rest)
      | ',' :: rest => (items fuel rest).map fun (vs, rest) => (v :: vs, rest)
      | _ => none

/-- Reads the fields of an object, of which there is at least one, and its
    closing bracket. -/
def fields : Nat → List Char → Rest (Option (List (String × Json)))
  | 0, _ => none
  | fuel + 1, cs =>
    match skipBlanks cs with
    | '"' :: rest =>
      match string rest with
      | some (k, rest) =>
        match skipBlanks rest with
        | ':' :: rest =>
          match value fuel rest with
          | none => none
          | some (v, rest) =>
            match skipBlanks rest with
            | '\x7d' :: rest => withField k v (some (some [], rest))
            | ',' :: rest => withField k v (fields fuel rest)
            | _ => none
        | _ => none
      | none => none
    | _ => none

end

/-- Reads a whole text. -/
def parse (text : String) : Option Json :=
  let cs := text.toList
  match value (cs.length + 1) cs with
  | some (v, rest) => if (skipBlanks rest).isEmpty then some v else none
  | none => none

end Json

end Quasiquote
