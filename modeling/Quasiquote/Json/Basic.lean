import Quasiquote.Decimal.Layout

namespace Quasiquote

/-!
# JSON values and their texts

Units and descriptors are stored as JSON.  A unit's checksum is taken over the
text without blanks, while files hold the text with one entry to a line.

* `Json` — values; objects keep the order of their fields;
* `Json.compact` — the text without blanks;
* `Json.pretty` — the text with two blanks of indentation to a level.
-/

/-- A JSON value. -/
inductive Json where
  | null
  | bool (b : Bool)
  | int (i : Int)
  | float (x : Float)
  | str (s : String)
  | arr (items : List Json)
  | obj (fields : List (String × Json))
  /-- A well-formed value that nobody can have: a number that is too large, a string with
      half of a character, or an object with such a string as a name.  It may stand
      where nobody looks. -/
  | unreadable
deriving Inhabited

namespace Json

/-- A hexadecimal digit. -/
def hexDigit (n : Nat) : Char :=
  if n < 10 then Char.ofNat ('0'.toNat + n) else Char.ofNat ('a'.toNat + (n - 10))

/-- A character inside a string. -/
def escapeChar (c : Char) : List Char :=
  match c with
  | '"' => ['\\', '"']
  | '\\' => ['\\', '\\']
  | '\n' => ['\\', 'n']
  | '\r' => ['\\', 'r']
  | '\t' => ['\\', 't']
  | c =>
    if c.toNat = 8 then ['\\', 'b']
    else if c.toNat = 12 then ['\\', 'f']
    else if c.toNat < 32 then
      ['\\', 'u', '0', '0', hexDigit (c.toNat / 16), hexDigit (c.toNat % 16)]
    else [c]

/-- A string between quotes. -/
def quote (s : String) : String :=
  String.ofList ('"' :: (s.toList.flatMap escapeChar ++ ['"']))

/-- A number with a fraction or an exponent; what is no number is `null`. -/
def floatText (x : Float) : String :=
  match Binary.ofFloat x with
  | .finite _ _ _ => Layout.json.render x
  | _ => "null"

/-- A value that has no parts. -/
def atomText : Json → String
  | .bool true => "true"
  | .bool false => "false"
  | .int i => toString i
  | .float x => floatText x
  | .str s => quote s
  | _ => "null"

mutual

/-- The text of a value without blanks. -/
def compact : Json → String
  | .arr items => "[" ++ ",".intercalate (compactAll items) ++ "]"
  | .obj fields => "\x7b" ++ ",".intercalate (compactFields fields) ++ "\x7d"
  | v => atomText v

/-- The texts of several values. -/
def compactAll : List Json → List String
  | [] => []
  | v :: vs => compact v :: compactAll vs

/-- The texts of several fields. -/
def compactFields : List (String × Json) → List String
  | [] => []
  | (k, v) :: fs => (quote k ++ ":" ++ compact v) :: compactFields fs

end

/-- A line break and the indentation of the next line. -/
def lineBreak (depth : Nat) : String :=
  String.ofList ('\n' :: List.replicate (2 * depth) ' ')

/-- Entries between brackets, one to a line. -/
def bracketed (opening closing : String) (depth : Nat) (entries : List String) : String :=
  if entries.isEmpty then opening ++ closing
  else opening ++ lineBreak (depth + 1) ++ ("," ++ lineBreak (depth + 1)).intercalate entries ++
    lineBreak depth ++ closing

mutual

/-- The text of a value at a depth of indentation. -/
def prettyAt (depth : Nat) : Json → String
  | .arr items => bracketed "[" "]" depth (prettyAll (depth + 1) items)
  | .obj fields => bracketed "\x7b" "\x7d" depth (prettyFields (depth + 1) fields)
  | v => atomText v

/-- The texts of several values. -/
def prettyAll (depth : Nat) : List Json → List String
  | [] => []
  | v :: vs => prettyAt depth v :: prettyAll depth vs

/-- The texts of several fields. -/
def prettyFields (depth : Nat) : List (String × Json) → List String
  | [] => []
  | (k, v) :: fs => (quote k ++ ": " ++ prettyAt depth v) :: prettyFields depth fs

end

/-- The text of a value, one entry to a line. -/
def pretty (v : Json) : String := prettyAt 0 v

/-- A string, or `null` for an absent one. -/
def ofOption : Option String → Json
  | some s => .str s
  | none => .null

end Json

end Quasiquote
