import Quasiquote.Decimal.Layout
import Quasiquote.Grammar.Language
import Quasiquote.Node.Operator
import Quasiquote.Template.Scopes
import Quasiquote.Text.Literal
import Quasiquote.Word

namespace Quasiquote

/-!
# Programs — from text to trees

A text is matched against the grammar, and the phrases become nodes.  The text
of a template may hold placeholders, which stand for the values of the innermost
template scope.

* `Reading` — the name of the text, an anchor for positions, and whether
  placeholders have values;
* `Reading.node` — the node of a phrase;
* `Reading.program` — the body that a text stands for;
* `Program.parse` — a text without placeholders, `Program.fill` — a template text
  with values for its placeholders.
-/

/-- How a text is read. -/
structure Reading where
  /-- The name of the text in diagnostics. -/
  source : String
  /-- The span of every node that the text gives rise to, if they all share one.
      Injected values keep their own. -/
  anchor : Option Span := none
  /-- Whether placeholders are resolved by the innermost template scope. -/
  resolves : Bool := false

namespace Reading

/-- Reading may fail, and it may use up values of template scopes. -/
abbrev Reader := ExceptT Diagnostic (StateM (Scopes Node))

variable (env : Reading)

/-- Where a phrase counts as standing. -/
def place (s : Span) : Span := env.anchor.getD s

/-- Where a node made from two places counts as standing. -/
def cover (s t : Span) : Span := env.anchor.getD (s.merge t)

/-- A failure of reading. -/
def failure (cause : Cause) (s : Span) : Diagnostic :=
  .report "parse" env.source cause (env.place s)

/-- A phrase that the grammar does not produce. -/
def malformed {α : Type} (s : Span) : Reader α :=
  throw (env.failure (.malformedText "malformed phrase") s)

/-! ### Literals -/

/-- The integer that an optional sign and digits stand for. -/
def integerOf (text : String) : Int :=
  match text.toList with
  | '-' :: ds => -(Decimal.natOfDigits ds : Int)
  | ds => Decimal.natOfDigits ds

/-- The float that an optional sign and digits with a point stand for. -/
def floatOf (text : String) : Float :=
  let unsigned : Bool → List Char → Float := fun negative ds =>
    Decimal.toFloat negative (ds.takeWhile (· != '.')) ((ds.dropWhile (· != '.')).drop 1)
  match text.toList with
  | '-' :: ds => unsigned true ds
  | ds => unsigned false ds

/-- An integer literal, which has to fit into a word. -/
def integer (text : String) (s : Span) : Reader Node :=
  if Word.fits (integerOf text) then pure ⟨env.place s, .int (integerOf text)⟩
  else throw (env.failure (.invalidLiteral "integer" text) s)

/-- The value that a placeholder stands for. -/
def placeholderValue (digits : String) (s : Span) : Reader Node :=
  let ordinal := Decimal.natOfDigits digits.toList
  if ordinal < Word.count then
    if env.resolves then
      (Scopes.resolve ordinal).adapt fun e => e.toDiagnostic "parse" env.source (env.place s)
    else throw (env.failure (.strayHole ("`$" ++ digits ++ "`")) s)
  else throw (env.failure (.invalidLiteral "template placeholder" ("$" ++ digits)) s)

/-! ### Blocks of commands -/

/-- Takes a `do` block away from a call, so that the command around it can have
    the block. -/
def takeDoBlock : Node → Node × Option Node
  | ⟨s, .call t name args (some ⟨b, .block ps body false⟩)⟩ =>
    (⟨s, .call t name args none⟩, some ⟨b, .block ps body false⟩)
  | ⟨s, .invoke name args (some ⟨b, .block ps body false⟩)⟩ =>
    (⟨s, .invoke name args none⟩, some ⟨b, .block ps body false⟩)
  | n => (n, none)

/-- Takes a `do` block away from the last argument of a command. -/
def takeLastDoBlock : List Node → List Node × Option Node
  | [] => ([], none)
  | [n] =>
    let (n, block) := takeDoBlock n
    ([n], block)
  | n :: ns =>
    let (ns, block) := takeLastDoBlock ns
    (n :: ns, block)

/-- A call without parentheses.  Unless it has a block of its own, it gets the
    `do` block at the end of its last argument. -/
def command (s : Span) (name : String) (args : List Node) : Option Node → Node
  | some block => ⟨s, .invoke name args (some block)⟩
  | none =>
    let (args, block) := takeLastDoBlock args
    ⟨s, .invoke name args block⟩

/-! ### Phrases -/

mutual

/-- The node that a phrase stands for. -/
def node : Phrase Rule → Reader Node
  | ⟨rule, s, text, parts⟩ => match rule, parts with
    | .body, parts => do return ⟨env.place s, .body (← nodes parts)⟩
    | .assignment, [⟨.field, _, name, _⟩, value] => do
      return ⟨env.place s, .fieldAssign (String.ofList (name.toList.drop 1)) (← node value)⟩
    | .assignment, [⟨_, _, name, _⟩, value] => do
      return ⟨env.place s, .assign name (← node value)⟩
    | .ternary, [test] => node test
    | .ternary, [test, yes, no] => do
      let test ← node test
      let yes ← node yes
      let no ← node no
      return ⟨env.place s, .cond test yes (some no)⟩
    | .binary, parts => do
      match Operand.tree env.cover (← operands parts) with
      | some n => return n
      | none => env.malformed s
    | .chain, first :: suffixes => do chain (← node first) suffixes
    | .integer, _ => env.integer text s
    | .float, _ => return ⟨env.place s, .float (floatOf text)⟩
    | .string, [⟨_, _, inside, _⟩] =>
      return ⟨env.place s, .str (String.ofList (Literal.unescape inside.toList))⟩
    | .kwTrue, _ => return ⟨env.place s, .bool true⟩
    | .kwFalse, _ => return ⟨env.place s, .bool false⟩
    | .kwNil, _ => return ⟨env.place s, .nil⟩
    | .kwSelf, _ => return ⟨env.place s, .self⟩
    | .name, _ => return ⟨env.place s, .ident text⟩
    | .field, _ => return ⟨env.place s, .field (String.ofList (text.toList.drop 1))⟩
    | .constant, _ => return ⟨env.place s, .constant text⟩
    | .parenthesized, [inside] => do
      let inside ← node inside
      return if inside.statements.isEmpty then ⟨env.place s, .nil⟩ else inside.collapse
    | .functionCall, [⟨_, _, name, _⟩, ⟨_, _, _, args⟩] => do
      return ⟨env.place s, .invoke name (← nodes args) none⟩
    | .functionCall, [⟨_, _, name, _⟩, ⟨_, _, _, args⟩, block] => do
      let args ← nodes args
      let block ← node block
      return ⟨env.place s, .invoke name args (some block)⟩
    | .command, [⟨_, _, name, _⟩, ⟨_, _, _, args⟩] => do
      return command (env.place s) name (← nodes args) none
    | .command, [⟨_, _, name, _⟩, ⟨_, _, _, args⟩, block] => do
      let args ← nodes args
      let block ← node block
      return command (env.place s) name args (some block)
    | .blockArg, [⟨_, _, name, _⟩] => return ⟨env.place s, .blockArgument name false⟩
    | .blockArg, [⟨_, _, name, _⟩, _] => return ⟨env.place s, .blockArgument name true⟩
    | .braceBlock, [body] => do return ⟨env.place s, .block [] (← node body) true⟩
    | .braceBlock, [⟨_, _, _, params⟩, body] => do
      return ⟨env.place s, .block (params.map Phrase.text) (← node body) true⟩
    | .doBlock, [body] => do return ⟨env.place s, .block [] (← node body) false⟩
    | .doBlock, [⟨_, _, _, params⟩, body] => do
      return ⟨env.place s, .block (params.map Phrase.text) (← node body) false⟩
    | .quoted, [block] => do
      match ← node block with
      | ⟨_, .block _ body _⟩ => return ⟨env.place s, .quote body⟩
      | n => return ⟨env.place s, .quote n⟩
    | .hole, [⟨.holeRef, _, _, [⟨_, _, digits, _⟩]⟩] => env.placeholderValue digits s
    | .hole, [inside] => do return ⟨env.place s, .unquote (← node inside)⟩
    | .ifExpr, test :: body :: clauses => do
      let test ← node test
      let yes ← node body
      let no ← otherwise clauses
      return ⟨env.place s, .cond test yes.collapse no⟩
    | .classDef, [⟨_, _, name, _⟩, body] => do
      return ⟨env.place s, .classDef name none (← node body)⟩
    | .classDef, [⟨_, _, name, _⟩, ⟨_, _, superclass, _⟩, body] => do
      return ⟨env.place s, .classDef name (some superclass) (← node body)⟩
    | .methodDef, ⟨_, _, name, _⟩ :: rest => method (env.place s) name [] none rest
    | _, _ => env.malformed s

/-- The nodes that phrases stand for, in order. -/
def nodes : List (Phrase Rule) → Reader (List Node)
  | [] => return []
  | p :: ps => do
    let n ← node p
    let ns ← nodes ps
    return n :: ns

/-- The parts of a line of operators. -/
def operands : List (Phrase Rule) → Reader (List Operand)
  | [] => return []
  | ⟨.notOp, s, _, _⟩ :: ps => do return .sign "!" (env.place s) :: (← operands ps)
  | ⟨.negOp, s, _, _⟩ :: ps => do return .sign "-@" (env.place s) :: (← operands ps)
  | ⟨.infixOp, _, name, _⟩ :: ps => do return .operator name :: (← operands ps)
  | p :: ps => do
    let n ← node p
    return .value n :: (← operands ps)

/-- The calls that a chain of suffixes makes on a node. -/
def chain (target : Node) : List (Phrase Rule) → Reader Node
  | [] => return target
  | ⟨_, s, _, [⟨_, _, name, _⟩]⟩ :: more =>
    chain ⟨env.cover target.span (env.place s), .call target name [] none⟩ more
  | ⟨_, s, _, [⟨_, _, name, _⟩, ⟨.callArgs, _, _, args⟩]⟩ :: more => do
    let args ← nodes args
    chain ⟨env.cover target.span (env.place s), .call target name args none⟩ more
  | ⟨_, s, _, [⟨_, _, name, _⟩, block]⟩ :: more => do
    let block ← node block
    chain ⟨env.cover target.span (env.place s), .call target name [] (some block)⟩ more
  | ⟨_, s, _, [⟨_, _, name, _⟩, ⟨_, _, _, args⟩, block]⟩ :: more => do
    let args ← nodes args
    let block ← node block
    chain ⟨env.cover target.span (env.place s), .call target name args (some block)⟩ more
  | ⟨_, s, _, _⟩ :: _ => env.malformed s

/-- What the clauses after the first body of a conditional stand for. -/
def otherwise : List (Phrase Rule) → Reader (Option Node)
  | [] => return none
  | ⟨.elsifClause, s, _, [test, body]⟩ :: more => do
    let test ← node test
    let yes ← node body
    let no ← otherwise more
    return some ⟨env.place s, .cond test yes.collapse no⟩
  | ⟨_, _, _, [body]⟩ :: _ => do return some (← node body).collapse
  | ⟨_, s, _, _⟩ :: _ => env.malformed s

/-- A method, given the phrases after its name. -/
def method (s : Span) (name : String) (params : List Parameter) (returns : Option String) :
    List (Phrase Rule) → Reader Node
  | [] => return ⟨s, .methodDef name params returns ⟨s, .body []⟩⟩
  | ⟨.paramList, _, _, ps⟩ :: more => do method s name (← parameters ps) returns more
  | ⟨.returnType, _, _, [⟨_, _, type, _⟩]⟩ :: more => method s name params (some type) more
  | body :: _ => do return ⟨s, .methodDef name params returns (← node body)⟩

/-- The parameters of a method. -/
def parameters : List (Phrase Rule) → Reader (List Parameter)
  | [] => return []
  | ⟨_, s, _, ⟨.blockMarker, _, _, _⟩ :: ⟨.name, _, name, _⟩ :: rest⟩ :: ps => do
    let p ← parameter (env.place s) name none true rest
    return p :: (← parameters ps)
  | ⟨_, s, _, ⟨.name, _, name, _⟩ :: rest⟩ :: ps => do
    let p ← parameter (env.place s) name none false rest
    return p :: (← parameters ps)
  | ⟨_, s, _, _⟩ :: _ => env.malformed s

/-- A parameter, given the phrases after its name. -/
def parameter (s : Span) (name : String) (type : Option String) (block : Bool) :
    List (Phrase Rule) → Reader Parameter
  | [] => return ⟨name, type, none, block⟩
  | ⟨.typeName, _, text, _⟩ :: more => parameter s name (some text) block more
  | value :: _ => do return ⟨name, type, some (← node value), block⟩

end

/-- The body that a text stands for. -/
def program (text : String) : Reader Node :=
  match language.read .program text with
  | .error p => throw (env.failure (.malformedText "unexpected text") ⟨p, p⟩)
  | .ok ⟨_, _, _, [body]⟩ => env.node body
  | .ok ⟨_, s, _, _⟩ => env.malformed s

end Reading

namespace Program

/-- The body that a text without placeholders stands for. -/
def parse (source text : String) (anchor : Option Span := none) : Except Diagnostic Node :=
  ((Reading.program { source, anchor } text).run.run []).1

/-- The body that a template text stands for when its placeholders get `values`.
    Every value has to be used. -/
def fill (source text : String) (anchor : Option Span) (values : List Node) :
    Reading.Reader Node :=
  Scopes.inject values TemplateError.toUnplaced
    (Reading.program { source, anchor, resolves := true } text)

end Program

end Quasiquote
