import Quasiquote.Yaml.Scalar

namespace Quasiquote

/-!
# Tokens — the parts of a YAML text

Outside brackets the indentation tells where collections begin and end, so the
tokens also stand for what is only seen by its column.  Whether a text is the key of
an entry is known only when its colon is found: it is a candidate until then, and the
tokens in front of it are put in afterwards.

* `Yaml.Token` — the parts;
* `Yaml.Scanner` — the parts so far, and what is known about the place reached;
* `Yaml.tokens` — the parts of a text.
-/

namespace Yaml

/-- A part of a text. -/
inductive Token where
  | version (major minor : Nat)
  /-- A handle of tags and what it is short for. -/
  | shorthand (handle start : String)
  | documentStart
  | documentEnd
  | listStart
  | mappingStart
  /-- The end of a list or a mapping outside brackets. -/
  | blockEnd
  | flowListStart
  | flowListEnd
  | flowMappingStart
  | flowMappingEnd
  /-- The dash of an item. -/
  | item
  | comma
  | key
  | value
  | alias (name : String)
  | anchor (name : String)
  | tag (handle rest : String)
  | scalar (s : Scalar)
deriving DecidableEq, Repr

/-- A token that may turn out to begin a key. -/
structure Candidate where
  line : Nat
  column : Nat
  /-- Whether nothing but a key may stand there. -/
  required : Bool
  /-- How many tokens are in front of it. -/
  index : Nat

/-- What is known when a part of a text was read. -/
structure Scanner where
  tokens : Array Token := #[]
  /-- The columns of the open collections outside brackets, the innermost first. -/
  indents : List Nat := []
  /-- The candidate inside the innermost brackets. -/
  candidate : Option Candidate := none
  /-- The candidates outside of each open bracket, the innermost first. -/
  outer : List (Option Candidate) := []
  /-- Whether a key may begin here. -/
  keyAllowed : Bool := true

namespace Scanner

/-- Whether brackets are open. -/
def inFlow (s : Scanner) : Bool := !s.outer.isEmpty

/-- Adds a token. -/
def push (s : Scanner) (t : Token) : Scanner := { s with tokens := s.tokens.push t }

/-! ### Indentation -/

/-- The least column of text inside the innermost collection. -/
def inner (s : Scanner) : Nat :=
  match s.indents with
  | [] => 0
  | n :: _ => n + 1

/-- Opens a collection at a column, unless one is open there.  Its token is put in
    behind the first `index` ones. -/
def indent (s : Scanner) (column index : Nat) (t : Token) : Scanner :=
  if !s.inFlow && s.inner ≤ column then
    { s with indents := column :: s.indents, tokens := s.tokens.insertIdxIfInBounds index t }
  else s

/-- Closes the collections that are open to the right of a column. -/
def dedent (s : Scanner) (left : Nat → Bool) : Scanner :=
  if s.inFlow then s
  else
    let closed := s.indents.takeWhile left
    { s with
      indents := s.indents.dropWhile left
      tokens := closed.foldl (fun ts _ => ts.push .blockEnd) s.tokens }

/-! ### Keys -/

/-- A key is on one line and not longer than this. -/
def keyLimit : Nat := 1024

/-- The candidate when the text has gone on to a mark: none if it is too far away, and an
    error if a key had to be there. -/
def expire (m : Mark) (c : Option Candidate) : Option (Option Candidate) :=
  match c with
  | none => some none
  | some k =>
    if k.line < m.line || k.column + keyLimit < m.column then
      if k.required then none else some none
    else some (some k)

/-- The scanner when the text has gone on to a mark. -/
def goTo (s : Scanner) (m : Mark) : Option Scanner := do
  let candidate ← expire m s.candidate
  let outer ← s.outer.mapM (expire m)
  return { s with candidate, outer }

/-- Gives up the candidate, if it is not required to be a key. -/
def dropKey (s : Scanner) : Option Scanner :=
  if s.candidate.any (·.required) then none else some { s with candidate := none }

/-- Makes the next token a candidate, if keys may begin here. -/
def saveKey (s : Scanner) (m : Mark) : Option Scanner :=
  if s.keyAllowed then
    s.dropKey.map fun s =>
      let required := !s.inFlow && s.indents.head? == some m.column
      { s with candidate := some ⟨m.line, m.column, required, s.tokens.size⟩ }
  else some s

/-- Allows keys to begin, or does not. -/
def allowKey (s : Scanner) (b : Bool) : Scanner := { s with keyAllowed := b }

end Scanner

/-- A scanner and the text that it has not read. -/
abbrev Scan := Option (Scanner × List Mark)

/-! ### Directives -/

/-- A number in a directive. -/
def versionNumber (ms : List Mark) : Option (Nat × List Mark) :=
  let (digits, rest) := word Char.isDigit ms
  if digits.isEmpty || 9 < digits.length then none
  else some (digits.foldl (fun n d => 10 * n + (d.toNat - '0'.toNat)) 0, rest)

/-- The version of the format. -/
def version (ms : List Mark) : Option (Token × List Mark) := do
  let (major, rest) ← versionNumber (skipBlanks ms)
  if startsWith '.' rest then
    let (minor, rest) ← versionNumber (rest.drop 1)
    return (.version major minor, rest)
  else none

/-- Whether a character may stand in a tag; inside angle brackets more of them may. -/
def isTagChar (verbatim : Bool) (c : Char) : Bool :=
  isWordChar c || ";/?:@&=+$.!~*'()".toList.contains c ||
    (verbatim && (c == ',' || c == '[' || c == ']'))

/-- How many bytes follow the first byte of a character. -/
def followers (byte : Nat) : Option Nat :=
  if byte < 0x80 then some 0
  else if byte / 0x20 = 6 then some 1
  else if byte / 0x10 = 14 then some 2
  else if byte / 0x08 = 30 then some 3
  else none

/-- The characters of a tag, and what follows them.  A percent sign and two hexadecimal
    digits stand for a byte, and `pending` bytes are missing in a character. -/
def tagChars (verbatim : Bool) : (pending : Nat) → List Mark → Option (List Char × List Mark)
  | pending, ⟨'%', _, _⟩ :: a :: b :: ms => do
    let byte ← hexValue [a, b]
    let next ← match pending with
      | 0 => followers byte
      | n + 1 => if byte / 0x40 = 2 then some n else none
    let (cs, rest) ← tagChars verbatim next ms
    return (Char.ofNat byte :: cs, rest)
  | 0, m :: ms =>
    if m.char == '%' then none
    else if isTagChar verbatim m.char then
      (tagChars verbatim 0 ms).map fun (cs, rest) => (m.char :: cs, rest)
    else some ([], m :: ms)
  | 0, [] => some ([], [])
  | _ + 1, _ => none

/-- A tag or a part of one, which ends before its first null. -/
def tagText (cs : List Char) : String := String.ofList (cs.takeWhile (· != '\x00'))

/-- The characters of a tag, of which there is at least one. -/
def someTagChars (verbatim : Bool) (ms : List Mark) : Option (String × List Mark) := do
  let (cs, rest) ← tagChars verbatim 0 ms
  if cs.isEmpty then none else return (tagText cs, rest)

/-- A handle of tags and what it is short for. -/
def shorthand (ms : List Mark) : Option (Token × List Mark) := do
  let rest := skipBlanks ms
  if startsWith '!' rest then
    let (name, rest) := word isWordChar (rest.drop 1)
    let closed := startsWith '!' rest
    let rest := if closed then rest.drop 1 else rest
    let handle := if closed then '!' :: (name ++ ['!']) else '!' :: name
    if (closed || name.isEmpty) && rest.head?.any (isBlank ·.char) then
      let (start, rest) ← someTagChars true (skipBlanks rest)
      if ends rest then return (.shorthand (String.ofList handle) start, rest) else none
    else none
  else none

/-- A directive behind its percent sign. -/
def directive (s : Scanner) (ms : List Mark) : Scan := do
  let (name, rest) := word isWordChar ms
  if ends rest then
    let (t, rest) ←
      if name = "YAML".toList then version rest
      else if name = "TAG".toList then shorthand rest
      else none
    return (s.push t, ← skipLine rest)
  else none

/-! ### Anchors and tags -/

/-- The name of an anchor. -/
def anchorName (ms : List Mark) : Option (String × List Mark) :=
  let (name, rest) := word isWordChar ms
  if name.isEmpty then none
  else if ends rest || rest.head?.any fun m => "?:,]\x7d%@`".toList.contains m.char then
    some (String.ofList name, rest)
  else none

/-- A tag behind its exclamation mark. -/
def tag (ms : List Mark) : Option (Token × List Mark) :=
  match ms with
  | ⟨'<', _, _⟩ :: ms => do
    let (text, rest) ← someTagChars true ms
    if startsWith '>' rest then return (.tag "" text, rest.drop 1) else none
  | _ => do
    let (name, rest) := word isWordChar ms
    if startsWith '!' rest then
      let (text, rest) ← someTagChars false (rest.drop 1)
      return (.tag (String.ofList ('!' :: (name ++ ['!']))) text, rest)
    else
      let (cs, rest) ← tagChars false 0 rest
      let text := tagText (name ++ cs)
      return (if text.isEmpty then .tag "" "!" else .tag "!" text, rest)

/-! ### The next token -/

/-- The text behind blanks, line breaks and comments, and whether a key may begin there.
    Where a key may begin outside brackets, tabs are no blanks. -/
def skipToToken (flow : Bool) : (allowed comment : Bool) → List Mark → Bool × List Mark
  | allowed, _, [] => (allowed, [])
  | allowed, comment, m :: ms =>
    if isBreak m.char then skipToToken flow (allowed || !flow) false ms
    else if comment || m.char == '#' then skipToToken flow allowed true ms
    else if m.char == ' ' || (m.char == '\t' && (flow || !allowed)) ||
        (m.char == byteOrderMark && m.column == 0) then
      skipToToken flow allowed false ms
    else (allowed, m :: ms)

/-- The marker of a document. -/
def marker (s : Scanner) (t : Token) (rest : List Mark) : Scan := do
  let s ← (s.dedent fun _ => true).dropKey
  return ((s.allowKey false).push t, rest)

/-- An opening bracket. -/
def openBracket (s : Scanner) (m : Mark) (t : Token) (rest : List Mark) : Scan := do
  let s ← s.saveKey m
  return ({ s with candidate := none, outer := s.candidate :: s.outer, keyAllowed := true }.push t,
    rest)

/-- A closing bracket. -/
def closeBracket (s : Scanner) (t : Token) (rest : List Mark) : Scan := do
  let s ← s.dropKey
  let s := match s.outer with
    | [] => s
    | c :: outer => { s with candidate := c, outer }
  return ((s.allowKey false).push t, rest)

/-- The dash of an item, or the question mark of a key: it opens a collection if it is
    the first one. -/
def entry (s : Scanner) (m : Mark) (opening t : Token) (keyNext : Bool) (rest : List Mark) :
    Scan := do
  if !s.inFlow && !s.keyAllowed then none
  else
    let s ← (s.indent m.column s.tokens.size opening).dropKey
    return ((s.allowKey keyNext).push t, rest)

/-- The colon of an entry.  If there is a candidate, it is the key. -/
def colon (s : Scanner) (m : Mark) (rest : List Mark) : Scan :=
  match s.candidate with
  | some k =>
    let s := { s with tokens := s.tokens.insertIdxIfInBounds k.index .key, candidate := none }
    let s := s.indent k.column k.index .mappingStart
    some ((s.allowKey false).push .value, rest)
  | none =>
    if !s.inFlow && !s.keyAllowed then none
    else
      let s := s.indent m.column s.tokens.size .mappingStart
      some ((s.allowKey (!s.inFlow)).push .value, rest)

/-- A token that may be a key, or be in front of one. -/
def leaf (s : Scanner) (m : Mark) (r : Option (Token × List Mark)) : Scan := do
  let s ← s.saveKey m
  let (t, rest) ← r
  return ((s.allowKey false).push t, rest)

/-- A scalar between quotes. -/
def quoted (r : Option (List Char × List Mark)) : Option (Token × List Mark) :=
  r.map fun (cs, rest) => (.scalar ⟨String.ofList cs, .quoted, none⟩, rest)

/-- A plain scalar.  A key may begin behind it if a line ends there. -/
def plainScalar (s : Scanner) (m : Mark) (ms : List Mark) : Scan := do
  let s ← s.saveKey m
  let (cs, broken, rest) ← plain s.inFlow s.inner {} ms
  return ((s.allowKey broken).push (.scalar ⟨String.ofList cs, .plain, none⟩), rest)

/-- A scalar that is a block of lines, which cannot be a key. -/
def blockScalar (s : Scanner) (style : Style) (ms : List Mark) : Scan := do
  let s ← s.dropKey
  let (cs, rest) ← block (style == .folded) s.indents.head? ms
  return ((s.allowKey true).push (.scalar ⟨String.ofList cs, style, none⟩), rest)

/-- The token that begins with a mark. -/
def token (s : Scanner) (m : Mark) (ms : List Mark) : Scan :=
  let all := m :: ms
  if m.column == 0 && m.char == '%' then do
    let s ← (s.dedent fun _ => true).dropKey
    directive (s.allowKey false) ms
  else if isTriple '-' all then marker s .documentStart (ms.drop 2)
  else if isTriple '.' all then marker s .documentEnd (ms.drop 2)
  else match m.char with
    | '[' => openBracket s m .flowListStart ms
    | '\x7b' => openBracket s m .flowMappingStart ms
    | ']' => closeBracket s .flowListEnd ms
    | '\x7d' => closeBracket s .flowMappingEnd ms
    | ',' => s.dropKey.map fun s => ((s.allowKey true).push .comma, ms)
    | '*' => leaf s m ((anchorName ms).map fun (n, rest) => (.alias n, rest))
    | '&' => leaf s m ((anchorName ms).map fun (n, rest) => (.anchor n, rest))
    | '!' => do
      let (s, rest) ← leaf s m (tag ms)
      if ends rest || (s.inFlow && startsWith ',' rest) then return (s, rest) else none
    | '\'' => leaf s m (quoted (singleQuoted {} ms))
    | '"' => leaf s m (quoted (doubleQuoted {} ms))
    | c =>
      if c == '-' && ends ms then entry s m .listStart .item true ms
      else if c == '?' && (s.inFlow || ends ms) then
        entry s m .mappingStart .key (!s.inFlow) ms
      else if c == ':' && (s.inFlow || ends ms) then colon s m ms
      else if c == '|' && !s.inFlow then blockScalar s .literal ms
      else if c == '>' && !s.inFlow then blockScalar s .folded ms
      else if startsPlain s.inFlow all then plainScalar s m all
      else none

/-- The tokens of a text, of which there are fewer than the given number. -/
def scan : Nat → Scanner → List Mark → Option (List Token)
  | 0, _, _ => none
  | n + 1, s, ms =>
    let (allowed, rest) := skipToToken s.inFlow s.keyAllowed false ms
    let s := s.allowKey allowed
    match rest with
    | [] => do
      let s ← (s.dedent fun _ => true).dropKey
      return s.tokens.toList
    | m :: ms => do
      let s ← s.goTo m
      let (s, rest) ← token (s.dedent (m.column < ·)) m ms
      scan n s rest

/-- The tokens of a text. -/
def tokens (text : String) : Option (List Token) := do
  let ms ← marks text
  scan (ms.length + 1) {} ms

end Yaml

end Quasiquote
