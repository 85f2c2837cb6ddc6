namespace Quasiquote

/-!
# Marks — the characters of a YAML text and their places

The structure of a YAML text depends on where its characters stand: on which line,
and how far from its beginning.  So a text is read as a list of marks.

* `Yaml.isBreak`, `Yaml.isBlank` — what ends a line, and what separates words;
* `Yaml.Mark` — a character with its place;
* `Yaml.marks` — the marks of a text.
-/

namespace Yaml

/-! ### Classes of characters -/

/-- Whether a character ends a line. -/
def isBreak (c : Char) : Bool := c == '\n' || c == '\u2028' || c == '\u2029'

/-- Whether a character is a space or a tab. -/
def isBlank (c : Char) : Bool := c == ' ' || c == '\t'

/-- Whether a character separates words. -/
def isSpace (c : Char) : Bool := isBlank c || isBreak c

/-- Whether a character may stand in names of anchors, tags and directives. -/
def isWordChar (c : Char) : Bool := c.isAlphanum || c == '_' || c == '-'

/-- Whether a character structures collections between brackets. -/
def isFlowMark (c : Char) : Bool :=
  c == ',' || c == '[' || c == ']' || c == '\x7b' || c == '\x7d'

/-- Whether a character may stand in a text at all. -/
def isAllowed (c : Char) : Bool :=
  c == '\t' || c == '\n' || c == '\r' || c == '\u0085' ||
    (0x20 ≤ c.toNat && c.toNat ≤ 0x7E) || (0xA0 ≤ c.toNat && c.toNat ≤ 0xFFFD) ||
    0x10000 ≤ c.toNat

/-- The mark of the byte order, which may begin a line. -/
def byteOrderMark : Char := '\ufeff'

/-! ### Places -/

/-- A character and its place. -/
structure Mark where
  char : Char
  line : Nat
  /-- How many characters stand in front of it on its line. -/
  column : Nat
deriving DecidableEq, Repr

/-- The marks of characters of which the first has a given place.  There are several
    ways to end a line, and most of them count as a line feed. -/
def marksFrom (line column : Nat) : List Char → List Mark
  | [] => []
  | '\r' :: '\n' :: cs => ⟨'\n', line, column⟩ :: marksFrom (line + 1) 0 cs
  | c :: cs =>
    if c == '\r' || c == '\u0085' then ⟨'\n', line, column⟩ :: marksFrom (line + 1) 0 cs
    else if isBreak c then ⟨c, line, column⟩ :: marksFrom (line + 1) 0 cs
    else ⟨c, line, column⟩ :: marksFrom line (column + 1) cs

/-- The marks of a text, if all of its characters are allowed. -/
def marks (text : String) : Option (List Mark) :=
  if text.toList.all isAllowed then some (marksFrom 0 0 text.toList) else none

/-- A text has marks if its characters are allowed. -/
theorem isSome_marks (text : String) : (marks text).isSome = text.toList.all isAllowed := by
  unfold marks
  cases text.toList.all isAllowed <;> simp

/-- Whether a text ends, or goes on with a blank or a line break. -/
def ends : List Mark → Bool
  | [] => true
  | m :: _ => isSpace m.char

/-- Whether a text goes on with a given character. -/
def startsWith (c : Char) : List Mark → Bool
  | [] => false
  | m :: _ => m.char == c

/-- Whether a line begins with three times the same character, and nothing else is in
    its first word. -/
def isTriple (c : Char) : List Mark → Bool
  | m :: n :: o :: ms =>
    m.column == 0 && m.char == c && n.char == c && o.char == c && ends ms
  | _ => false

/-- Whether a line begins with the marker of a document. -/
def atMarker (ms : List Mark) : Bool := isTriple '-' ms || isTriple '.' ms

/-- The text after blanks. -/
def skipBlanks (ms : List Mark) : List Mark := ms.dropWhile fun m => isBlank m.char

/-- What is behind blanks and a comment that fill up a line, and behind its end. -/
def skipLine (ms : List Mark) : Option (List Mark) :=
  let rest := skipBlanks ms
  let rest := if startsWith '#' rest then rest.dropWhile fun m => !isBreak m.char else rest
  match rest with
  | [] => some []
  | m :: ms => if isBreak m.char then some ms else none

/-- The word at the beginning of a text, and what follows it. -/
def word (p : Char → Bool) (ms : List Mark) : List Char × List Mark :=
  ((ms.takeWhile fun m => p m.char).map Mark.char, ms.dropWhile fun m => p m.char)

/-- A word and what follows it are the whole text. -/
theorem word_append (p : Char → Bool) (ms : List Mark) :
    (word p ms).1 ++ (word p ms).2.map Mark.char = ms.map Mark.char := by
  rw [word, ← List.map_append, List.takeWhile_append_dropWhile]

/-! ### Hexadecimal codes -/

/-- The value of a hexadecimal digit. -/
def hexDigit (m : Mark) : Option Nat :=
  let c := m.char
  if c.isDigit then some (c.toNat - '0'.toNat)
  else if 'a' ≤ c && c ≤ 'f' then some (c.toNat - 'a'.toNat + 10)
  else if 'A' ≤ c && c ≤ 'F' then some (c.toNat - 'A'.toNat + 10)
  else none

/-- The value of hexadecimal digits. -/
def hexValue (ms : List Mark) : Option Nat :=
  (ms.mapM hexDigit).map (·.foldl (fun n d => 16 * n + d) 0)

end Yaml

end Quasiquote
