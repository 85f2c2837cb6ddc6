import Quasiquote.Grammar.Peg

namespace Quasiquote

/-!
# The grammar of the language

Statements are separated by newlines or semicolons; calls may have blocks and
may leave out their parentheses; operators are calls; a quoted body may have
holes between backquotes.

* `Rule` — the phrases of the language;
* `Rule.mode`, `Rule.expression` — how each is read;
* `language` — the grammar as a whole.
-/

/-- The phrases of the language. -/
inductive Rule where
  | program | separator | newlines | body
  | expr | assignment | ternary | binary | operand
  | signOp | notOp | negOp | infixOp
  | chain | suffix | primary
  | callArgs | callArg | blockArg | functionCall | functionName
  | command | commandArgs | commandStop
  | anyBlock | braceBlock | doBlock | blockParams | parenthesized
  | quoted | hole | holeRef | holeIndex
  | ifExpr | elsifClause | elseClause
  | classDef | methodDef | paramList | param | blockMarker | returnType
  | methodName | operatorName | identChar | reserved
  | name | constant | field | typeName
  | float | integer | string | stringInner
  | kwIf | kwElsif | kwElse | kwEnd | kwThen | kwClass | kwDef | kwDo | kwQuote
  | kwTrue | kwFalse | kwNil | kwSelf
  | endOfText
deriving DecidableEq, Repr

namespace Rule

open Peg (lit seqs alts)

/-- Which rules leave phrases, and which are tokens. -/
def mode : Rule → Mode
  | .separator | .newlines | .expr | .operand | .signOp | .primary | .callArg
  | .commandStop | .anyBlock | .operatorName | .identChar => .inline
  | .notOp | .negOp | .infixOp | .functionName | .holeIndex | .methodName | .reserved
  | .name | .constant | .field | .typeName | .float | .integer | .stringInner
  | .kwTrue | .kwFalse | .kwNil | .kwSelf => .token
  | .holeRef | .string => .tight
  | .kwIf | .kwElsif | .kwElse | .kwEnd | .kwThen | .kwClass | .kwDef | .kwDo | .kwQuote
  | .endOfText => .keyword
  | _ => .phrase

/-- A rule as an expression. -/
abbrev ref (r : Rule) : Peg Rule := .rule r

/-- Any of the three ends of a line. -/
def newline : Peg Rule := alts [lit "\n", lit "\r\n", lit "\r"]

/-- One ASCII digit. -/
def digit : Peg Rule := .char Char.isDigit

/-- The start of a name: a letter of a class, or an underscore. -/
def start (letters : Char → Bool) : Peg Rule := .char fun c => letters c || c == '_'

/-- The rest of a name. -/
def tail : Peg Rule := .many (ref .identChar)

/-- A reserved word that no longer name continues. -/
def word (s : String) : Peg Rule := .seq (lit s) (.refuse (ref .identChar))

/-- Repetitions of `e` with a comma and newlines between them, or nothing. -/
def listed (e : Peg Rule) : Peg Rule :=
  .opt (seqs [e, .many (seqs [ref .newlines, lit ",", ref .newlines, e])])

/-- The expression of each rule. -/
def expression : Rule → Peg Rule
  -- Statements
  | .program => seqs [.text [], ref .body, ref .endOfText]
  | .endOfText => .stop
  | .separator => .some (alts [newline, lit ";"])
  | .newlines => .many newline
  | .body => seqs
      [.opt (ref .separator),
       .opt (seqs [ref .expr, .many (seqs [ref .separator, ref .expr])]),
       .opt (ref .separator)]
  -- Expressions
  | .expr => alts [ref .assignment, ref .ternary]
  | .assignment => seqs
      [alts [ref .field, ref .name], lit "=", .refuse (lit "="), ref .newlines, ref .expr]
  | .ternary => seqs
      [ref .binary,
       .opt (seqs [lit "?", ref .newlines, ref .expr, ref .newlines, lit ":", ref .newlines,
         ref .expr])]
  | .binary => seqs
      [ref .operand, .many (seqs [ref .infixOp, ref .newlines, ref .operand])]
  | .operand => seqs [.many (ref .signOp), ref .chain]
  | .signOp => alts [ref .notOp, ref .negOp]
  | .notOp => seqs [lit "!", .refuse (lit "=")]
  | .negOp => seqs [lit "-", .refuse digit]
  | .infixOp => alts (["||", "&&", "==", "!=", "<=", ">=", "<<", "<", ">", "+", "-", "*", "/",
      "%"].map lit)
  | .chain => seqs [ref .primary, .many (ref .suffix)]
  | .suffix => seqs
      [lit ".", ref .newlines, ref .methodName, .opt (ref .callArgs), .opt (ref .anyBlock)]
  | .primary => alts
      [ref .float, ref .integer, ref .string, ref .kwTrue, ref .kwFalse, ref .kwNil,
       ref .kwSelf, ref .quoted, ref .ifExpr, ref .classDef, ref .methodDef, ref .hole,
       ref .parenthesized, ref .field, ref .functionCall, ref .command, ref .constant,
       ref .name]
  -- Calls and blocks
  | .callArgs => seqs
      [lit "(", ref .newlines, listed (ref .callArg), ref .newlines, lit ")"]
  | .callArg => alts [ref .blockArg, ref .expr]
  | .blockArg => seqs [lit "&", ref .name, .opt (seqs [lit "=", ref .kwNil])]
  | .functionCall => seqs [ref .functionName, ref .callArgs, .opt (ref .anyBlock)]
  | .functionName => seqs
      [.refuse (ref .reserved), start Char.isLower, tail, .ahead (lit "(")]
  | .command => seqs
      [ref .name, .refuse (ref .commandStop), ref .commandArgs, .opt (ref .doBlock)]
  | .commandArgs => seqs
      [ref .expr, .many (seqs [lit ",", ref .newlines, ref .expr])]
  | .commandStop => alts
      ([ref .infixOp] ++ ["=", "?", ":", ".", ",", ")", "\x7d", "\x7b", "|", "&"].map lit ++
       [ref .kwDo, ref .kwEnd, ref .kwThen, ref .kwElse, ref .kwElsif, newline, lit ";",
        ref .endOfText])
  | .anyBlock => alts [ref .braceBlock, ref .doBlock]
  | .braceBlock => seqs [lit "\x7b", .opt (ref .blockParams), ref .body, lit "\x7d"]
  | .doBlock => seqs [ref .kwDo, .opt (ref .blockParams), ref .body, ref .kwEnd]
  | .blockParams => seqs
      [lit "|", .opt (seqs [ref .name, .many (seqs [lit ",", ref .name])]), lit "|"]
  | .parenthesized => seqs [lit "(", ref .body, lit ")"]
  -- Templates
  | .quoted => seqs [ref .kwQuote, ref .anyBlock]
  | .hole => seqs [lit "`", alts [ref .holeRef, ref .expr], lit "`"]
  | .holeRef => seqs [lit "$", ref .holeIndex]
  | .holeIndex => .some digit
  -- Definitions
  | .ifExpr => seqs
      [ref .kwIf, ref .expr, alts [ref .kwThen, ref .separator], ref .body,
       .many (ref .elsifClause), .opt (ref .elseClause), ref .kwEnd]
  | .elsifClause => seqs
      [ref .kwElsif, ref .expr, alts [ref .kwThen, ref .separator], ref .body]
  | .elseClause => seqs [ref .kwElse, ref .body]
  | .classDef => seqs
      [ref .kwClass, ref .constant, .opt (seqs [lit "<", ref .constant]), ref .body, ref .kwEnd]
  | .methodDef => seqs
      [ref .kwDef, ref .methodName, .opt (ref .paramList), .opt (ref .returnType), ref .body,
       ref .kwEnd]
  | .paramList => seqs
      [lit "(", ref .newlines, listed (ref .param), ref .newlines, lit ")"]
  | .param => seqs
      [.opt (ref .blockMarker), ref .name, .opt (seqs [lit ":", ref .typeName]),
       .opt (seqs [lit "=", ref .expr])]
  | .blockMarker => lit "&"
  | .returnType => seqs [lit ":", ref .typeName]
  -- Tokens
  | .methodName => alts [seqs [start Char.isAlpha, tail], ref .operatorName]
  | .operatorName => alts (["==", "!=", "<=", ">=", "<<", "<", ">", "+", "-", "*", "/", "%",
      "!"].map lit)
  | .identChar => .char fun c => c.isAlphanum || c == '_'
  | .reserved => .seq
      (alts (["if", "elsif", "else", "end", "class", "def", "do", "then", "true", "false",
        "nil", "self", "quote"].map lit))
      (.refuse (ref .identChar))
  | .name => seqs [.refuse (ref .reserved), start Char.isLower, tail]
  | .constant | .typeName => seqs [.char Char.isUpper, tail]
  | .field => seqs [lit "@", start Char.isAlpha, tail]
  | .float => seqs [.opt (lit "-"), .some digit, lit ".", .some digit]
  | .integer => seqs [.opt (lit "-"), .some digit]
  | .string => seqs [lit "\"", ref .stringInner, lit "\""]
  | .stringInner => .many (alts
      [seqs [lit "\\", .char fun _ => true], .char fun c => c != '"' && c != '\\'])
  | .kwIf => word "if"
  | .kwElsif => word "elsif"
  | .kwElse => word "else"
  | .kwEnd => word "end"
  | .kwThen => word "then"
  | .kwClass => word "class"
  | .kwDef => word "def"
  | .kwDo => word "do"
  | .kwQuote => word "quote"
  | .kwTrue => word "true"
  | .kwFalse => word "false"
  | .kwNil => word "nil"
  | .kwSelf => word "self"

end Rule

namespace Blank

mutual

/-- The place after blanks: spaces, tabs, carriage returns, line ends behind a
    backslash, and comments. -/
def skip : Nat → List Char → Place
  | pos, ' ' :: cs => skip (pos + 1) cs
  | pos, '\t' :: cs => skip (pos + 1) cs
  | pos, '\r' :: cs => skip (pos + 1) cs
  | pos, '\\' :: '\n' :: cs => skip (pos + 2) cs
  | pos, '\\' :: '\r' :: '\n' :: cs => skip (pos + 3) cs
  | pos, '\\' :: '\r' :: cs => skip (pos + 2) cs
  | pos, '#' :: cs => skipComment (pos + 1) cs
  | pos, cs => ⟨pos, cs⟩

/-- The place after the rest of a comment and the blanks behind it.  A comment
    ends before the end of its line. -/
def skipComment : Nat → List Char → Place
  | pos, [] => ⟨pos, []⟩
  | pos, '\n' :: cs => ⟨pos, '\n' :: cs⟩
  | pos, '\r' :: cs => skip (pos + 1) cs
  | pos, c :: cs => skipComment (pos + c.utf8Size) cs

end

end Blank

/-- The grammar of the language. -/
def language : Grammar Rule where
  mode := Rule.mode
  rule := Rule.expression
  skip p := Blank.skip p.pos p.rest
  nesting := 1024

end Quasiquote
