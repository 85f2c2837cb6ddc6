import Quasiquote.Node.Basic
import Quasiquote.Types.Ref

namespace Quasiquote

/-!
# Macro signatures — what calls a macro accepts

A signature lists the kinds of a macro's parameters.  It is written as the
letters of the kinds between parentheses and the letter `N`, for the node that
an expansion yields; a block can only come last.

* `ParamKind`, `Signature` — kinds of parameters, and lists of them;
* `Signature.encode`, `Signature.decode?` — the written form;
* `Signature.accepts` — whether a call of some shape fits.
-/

/-- The kind of one parameter. -/
inductive ParamKind where
  | required
  | optional
  | block
deriving DecidableEq, Repr

namespace ParamKind

/-- The letter of a kind. -/
def letter : ParamKind → Char
  | .required => 'R'
  | .optional => 'O'
  | .block => 'B'

/-- The kind of a letter. -/
def ofLetter? : Char → Option ParamKind
  | 'R' => some .required
  | 'O' => some .optional
  | 'B' => some .block
  | _ => none

@[simp] theorem ofLetter?_letter (k : ParamKind) : ofLetter? k.letter = some k := by
  cases k <;> rfl

/-- Only one letter stands for a kind. -/
theorem ofLetter?_eq_some {c : Char} {k : ParamKind} (h : ofLetter? c = some k) :
    c = k.letter := by
  unfold ofLetter? at h
  split at h <;> simp_all <;> subst h <;> rfl

/-- The static type of a parameter: blocks take a block, everything else is an
    untyped node. -/
def type : ParamKind → TypeRef
  | .block => .block
  | _ => .any

end ParamKind

/-- The kinds of a macro's parameters. -/
structure Signature where
  params : List ParamKind
deriving DecidableEq, Repr

namespace Signature

/-- The written form of a signature, character by character. -/
def encodeChars (s : Signature) : List Char :=
  '(' :: (s.params.map ParamKind.letter ++ [')', 'N'])

/-- The written form of a signature. -/
def encode (s : Signature) : String := String.ofList s.encodeChars

/-- Whether no parameter but the last is a block. -/
def blockLast (ps : List ParamKind) : Bool := ps.dropLast.all (· != .block)

/-- Reads the kinds up to the closing of a signature. -/
def decodeKinds : List Char → Option (List ParamKind)
  | [')', 'N'] => some []
  | c :: cs => match ParamKind.ofLetter? c with
    | some k => (decodeKinds cs).map (k :: ·)
    | none => none
  | [] => none

/-- Reads the written form of a signature, character by character. -/
def decodeChars? : List Char → Option Signature
  | '(' :: cs => match decodeKinds cs with
    | some ps => if blockLast ps then some ⟨ps⟩ else none
    | none => none
  | _ => none

/-- Reads the written form of a signature. -/
def decode? (text : String) : Option Signature := decodeChars? text.toList

/-- The sentence that reports a text that is no signature. -/
def malformed (text : String) : String := "malformed macro signature '" ++ text ++ "'"

/-- How many arguments a call has to have. -/
def required (s : Signature) : Nat := s.params.count .required

/-- How many arguments a call may have. -/
def positional (s : Signature) : Nat := s.params.countP (· != .block)

/-- Whether a call has to have a block. -/
def hasBlock (s : Signature) : Bool := s.params.getLast? == some .block

/-- The signature without its block. -/
def withoutBlock (s : Signature) : Signature :=
  if s.hasBlock then ⟨s.params.dropLast⟩ else s

/-- The static types of the parameters. -/
def types (s : Signature) : List TypeRef := s.params.map ParamKind.type

/-- Whether a call with `argc` arguments, with or without a block, fits. -/
def accepts (s : Signature) (argc : Nat) (block : Bool) : Bool :=
  s.hasBlock == block && s.required ≤ argc && argc ≤ s.positional

end Signature

/-- The kind of a declared argument. -/
def Argument.kind : Argument → ParamKind
  | .required _ => .required
  | .optional _ _ => .optional
  | .block _ _ => .block

namespace MacroSpec

/-- The signature of a macro. -/
def signature (m : MacroSpec) : Signature := ⟨m.args.map Argument.kind⟩

/-- Whether the last argument is a block that calls may leave out. -/
def hasOptionalBlock (m : MacroSpec) : Bool :=
  match m.args.getLast? with
  | some (.block _ optional) => optional
  | _ => false

end MacroSpec

end Quasiquote
