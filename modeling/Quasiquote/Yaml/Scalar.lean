import Quasiquote.Yaml.Mark

namespace Quasiquote

/-!
# Scalars — the texts in a YAML document

A scalar is written plainly, between quotes, or as a block of lines.  Where it goes
on in another line, the line break is a space, and only empty lines are kept; the
lines of a block keep their breaks unless the block is folded.

* `Yaml.Gap` — what separates two words of a scalar, and its text;
* `Yaml.plain`, `Yaml.doubleQuoted`, `Yaml.singleQuoted`, `Yaml.block` — the scalars of
  each style at the beginning of a text.
-/

namespace Yaml

/-- How a scalar is written. -/
inductive Style where
  | plain
  | quoted
  /-- A block that keeps its line breaks. -/
  | literal
  /-- A block that joins its lines. -/
  | folded
deriving DecidableEq, Repr

/-- A scalar. -/
structure Scalar where
  text : String
  style : Style
  /-- What kind of value it is said to be. -/
  tag : Option String := none
deriving DecidableEq, Repr

/-- The scalar that stands where nothing is written. -/
def Scalar.empty (tag : Option String) : Scalar := ⟨"", .plain, tag⟩

/-! ### Between words -/

/-- Blanks and line breaks between two words. -/
structure Gap where
  /-- The blanks before any line break. -/
  blanks : List Char := []
  /-- Whether a line ends in the gap. -/
  broken : Bool := false
  /-- The first line break, unless it is escaped. -/
  first : List Char := []
  /-- The line breaks after it. -/
  more : List Char := []

namespace Gap

/-- A gap that goes on with a blank or a line break. -/
def add (g : Gap) (c : Char) : Gap :=
  if isBreak c then
    if g.broken then { g with more := g.more ++ [c] } else ⟨[], true, [c], []⟩
  else if g.broken then g
  else { g with blanks := g.blanks ++ [c] }

/-- A gap that begins with an escaped line break. -/
def escaped : Gap := ⟨[], true, [], []⟩

/-- Whether nothing separates the words. -/
def isEmpty (g : Gap) : Bool := !g.broken && g.blanks.isEmpty

/-- Lines that are joined: one line break is a space, and of several the first is left
    out.  Separators of lines and paragraphs are kept. -/
def fold (first more : List Char) : List Char :=
  if first = ['\n'] then if more.isEmpty then [' '] else more else first ++ more

/-- What stands for a gap in the text of a scalar. -/
def text (g : Gap) : List Char := if g.broken then fold g.first g.more else g.blanks

/-- Where nothing separates words, nothing stands between them. -/
theorem text_of_isEmpty {g : Gap} (h : g.isEmpty = true) : g.text = [] := by
  rw [isEmpty, Bool.and_eq_true, Bool.not_eq_true', List.isEmpty_iff] at h
  rw [text, h.1, h.2]
  rfl

/-- A single line break is a space. -/
theorem text_add_break : (({} : Gap).add '\n').text = [' '] := rfl

/-- Blanks on one line are kept. -/
theorem text_add_blank {g : Gap} {c : Char} (hb : g.broken = false) (hc : isBreak c = false) :
    (g.add c).text = g.text ++ [c] := by
  simp [add, text, hb, hc]

end Gap

/-- A scalar that begins with a gap and a character. -/
def after (g : Gap) (c : Char) (r : Option (List Char × List Mark)) :
    Option (List Char × List Mark) :=
  r.map fun (cs, rest) => (g.text ++ c :: cs, rest)

/-! ### Quotes -/

/-- What a backslash and a character stand for. -/
def escapedChar : Char → Option Char
  | '0' => some '\x00'
  | 'a' => some '\x07'
  | 'b' => some '\x08'
  | 't' => some '\t'
  | '\t' => some '\t'
  | 'n' => some '\n'
  | 'v' => some '\x0b'
  | 'f' => some '\x0c'
  | 'r' => some '\r'
  | 'e' => some '\x1b'
  | ' ' => some ' '
  | '"' => some '"'
  | '/' => some '/'
  | '\\' => some '\\'
  | 'N' => some '\u0085'
  | '_' => some '\u00a0'
  | 'L' => some '\u2028'
  | 'P' => some '\u2029'
  | _ => none

/-- The character with a hexadecimal code. -/
def codePoint (ms : List Mark) : Option Char := do
  let n ← hexValue ms
  if n.isValidChar then some (Char.ofNat n) else none

/-- The inside of a double-quoted scalar from a gap on, and the text behind it. -/
def doubleQuoted (g : Gap) : List Mark → Option (List Char × List Mark)
  | [] => none
  | ⟨'\\', _, _⟩ :: ⟨'x', _, _⟩ :: a :: b :: ms => do
    after g (← codePoint [a, b]) (doubleQuoted {} ms)
  | ⟨'\\', _, _⟩ :: ⟨'u', _, _⟩ :: a :: b :: c :: d :: ms => do
    after g (← codePoint [a, b, c, d]) (doubleQuoted {} ms)
  | ⟨'\\', _, _⟩ :: ⟨'U', _, _⟩ :: a :: b :: c :: d :: e :: f :: x :: y :: ms => do
    after g (← codePoint [a, b, c, d, e, f, x, y]) (doubleQuoted {} ms)
  | ⟨'\\', _, _⟩ :: m :: ms =>
    if isBreak m.char then
      (doubleQuoted .escaped ms).map fun (cs, rest) => (g.text ++ cs, rest)
    else do after g (← escapedChar m.char) (doubleQuoted {} ms)
  | m :: ms =>
    if isSpace m.char then doubleQuoted (g.add m.char) ms
    else if m.char == '"' then some (g.text, ms)
    else if atMarker (m :: ms) then none
    else after g m.char (doubleQuoted {} ms)

/-- The inside of a single-quoted scalar from a gap on, and the text behind it. -/
def singleQuoted (g : Gap) : List Mark → Option (List Char × List Mark)
  | [] => none
  | ⟨'\'', _, _⟩ :: ⟨'\'', _, _⟩ :: ms => after g '\'' (singleQuoted {} ms)
  | m :: ms =>
    if isSpace m.char then singleQuoted (g.add m.char) ms
    else if m.char == '\'' then some (g.text, ms)
    else if atMarker (m :: ms) then none
    else after g m.char (singleQuoted {} ms)

/-! ### Plain scalars -/

/-- Whether a plain scalar may begin like this. -/
def startsPlain (flow : Bool) : List Mark → Bool
  | [] => false
  | m :: ms =>
    if m.char == '-' then !(startsWith ' ' ms || startsWith '\t' ms)
    else if m.char == '?' || m.char == ':' then !flow && !ends ms
    else !(isSpace m.char || isFlowMark m.char || "#&*!|>'\"%@`".toList.contains m.char)

/-- Whether a colon ends a plain scalar. -/
def atColon : List Mark → Bool
  | m :: ms => m.char == ':' && ends ms
  | [] => false

/-- Whether a colon between brackets has a bracket right behind it. -/
def atStrayColon : List Mark → Bool
  | m :: n :: _ => m.char == ':' && (isFlowMark n.char || n.char == '?')
  | _ => false

/-- The rest of a plain scalar from a gap on: its text, whether a line ends behind it,
    and what follows.  Outside brackets its lines are indented by at least `indent`. -/
def plain (flow : Bool) (indent : Nat) (g : Gap) :
    List Mark → Option (List Char × Bool × List Mark)
  | [] => some ([], g.broken, [])
  | m :: ms =>
    if isSpace m.char then
      if m.char == '\t' && g.broken && m.column < indent then none
      else plain flow indent (g.add m.char) ms
    else if (g.broken && !flow && m.column < indent) || atMarker (m :: ms) ||
        (m.char == '#' && !g.isEmpty) then
      some ([], g.broken, m :: ms)
    else if flow && atStrayColon (m :: ms) then none
    else if atColon (m :: ms) || (flow && isFlowMark m.char) then some ([], g.broken, m :: ms)
    else (plain flow indent {} ms).map fun (cs, r) => (g.text ++ m.char :: cs, r)

/-! ### Blocks -/

/-- What becomes of the line breaks at the end of a block. -/
inductive Chomping where
  | strip
  /-- The last line is ended, and empty lines behind it do not count. -/
  | clip
  | keep
deriving DecidableEq, Repr

/-- The sign that says what becomes of the last line breaks. -/
def chomping : List Mark → Option (Chomping × List Mark)
  | m :: ms =>
    if m.char == '+' then some (.keep, ms)
    else if m.char == '-' then some (.strip, ms)
    else none
  | [] => none

/-- The digit that says how far a block is indented. -/
def indentation : List Mark → Option (Nat × List Mark)
  | m :: ms => if m.char.isDigit then some (m.char.toNat - '0'.toNat, ms) else none
  | [] => none

/-- What stands behind the sign of a block: the chomping and the indentation, in any
    order, and nothing else on the line.  No block is indented by zero. -/
def blockHeader (ms : List Mark) : Option (Chomping × Option Nat × List Mark) :=
  let header := match chomping ms with
    | some (chomp, ms) => match indentation ms with
      | some (n, ms) => (chomp, some n, ms)
      | none => (chomp, none, ms)
    | none => match indentation ms with
      | some (n, ms) => match chomping ms with
        | some (chomp, ms) => (chomp, some n, ms)
        | none => (.clip, some n, ms)
      | none => (.clip, none, ms)
  let (chomp, n, ms) := header
  if n = some 0 then none else (skipLine ms).map fun rest => (chomp, n, rest)

/-- Skips empty lines and the blanks in front of a line, up to an indentation if it is
    known: the widest indentation so far, the line breaks, and what follows. -/
def skipEmpty (indent : Option Nat) (widest : Nat) :
    List Mark → Option (Nat × List Char × List Mark)
  | [] => some (widest, [], [])
  | m :: ms =>
    let inside := indent.all (m.column < ·)
    if m.char == ' ' && inside then skipEmpty indent widest ms
    else if m.char == '\t' && inside then none
    else if isBreak m.char then
      (skipEmpty indent (max widest m.column) ms).map fun (w, cs, rest) => (w, m.char :: cs, rest)
    else some (max widest m.column, [], m :: ms)

/-- The lines of a block, of which there are fewer than the given number: their text, the
    break of the last one, the empty lines behind it, and what follows.  `first` and
    `more` are the breaks before the lines, and `loose` tells whether the line before
    them begins with a blank. -/
def blockLines (folded : Bool) (indent : Nat) :
    Nat → (first more : List Char) → (loose : Bool) → List Mark →
      Option (List Char × List Char × List Char × List Mark)
  | 0, _, _, _, _ => none
  | n + 1, first, more, loose, ms =>
    if ms.head?.any (·.column = indent) then do
      let blank := ms.head?.any fun m => isBlank m.char
      let joint := if folded && !loose && !blank then Gap.fold first more else first ++ more
      let (line, rest) := word (!isBreak ·) ms
      let ending := (rest.take 1).map Mark.char
      let (_, empty, rest) ← skipEmpty (some indent) 0 (rest.drop 1)
      let (text, behind) ← blockLines folded indent n ending empty blank rest
      return (joint ++ line ++ text, behind)
    else some ([], first, more, ms)

/-- The block behind its sign, in a collection whose entries are indented by `outer`
    characters, if it is in one. -/
def block (folded : Bool) (outer : Option Nat) (ms : List Mark) :
    Option (List Char × List Mark) := do
  let (chomp, given, ms) ← blockHeader ms
  let given := given.map (outer.getD 0 + ·)
  let (widest, empty, ms) ← skipEmpty given 0 ms
  let least := (outer.map (· + 1)).getD 1
  let indent := given.getD (max widest least)
  let (text, ending, empty, rest) ← blockLines folded indent (ms.length + 1) [] empty false ms
  match chomp with
  | .strip => return (text, rest)
  | .clip => return (text ++ ending, rest)
  | .keep => return (text ++ ending ++ empty, rest)

end Yaml

end Quasiquote
