import Quasiquote.Node.Basic

namespace Quasiquote

/-!
# Node equality — the same program text, wherever it stands

Two trees are alike if they differ at most in their spans.  Floats are compared
as numbers, so a not-a-number literal is alike to nothing.

* `Node.alike` — equality of trees with spans left out;
* `Node.unplaced` — the tree with every span set to the empty one.
-/

namespace Node

mutual

/-- Equality of trees with spans left out. -/
def alike : Node → Node → Bool
  | ⟨_, .int a⟩, n => match n.form with | .int b => a == b | _ => false
  | ⟨_, .float a⟩, n => match n.form with | .float b => a == b | _ => false
  | ⟨_, .str a⟩, n => match n.form with | .str b => a == b | _ => false
  | ⟨_, .bool a⟩, n => match n.form with | .bool b => a == b | _ => false
  | ⟨_, .nil⟩, n => match n.form with | .nil => true | _ => false
  | ⟨_, .self⟩, n => match n.form with | .self => true | _ => false
  | ⟨_, .ident a⟩, n => match n.form with | .ident b => a == b | _ => false
  | ⟨_, .assign a v⟩, n => match n.form with
    | .assign b w => a == b && alike v w
    | _ => false
  | ⟨_, .field a⟩, n => match n.form with | .field b => a == b | _ => false
  | ⟨_, .fieldAssign a v⟩, n => match n.form with
    | .fieldAssign b w => a == b && alike v w
    | _ => false
  | ⟨_, .constant a⟩, n => match n.form with | .constant b => a == b | _ => false
  | ⟨_, .call t a args k⟩, n => match n.form with
    | .call u b brgs l => alike t u && a == b && alikeAll args brgs && alikeOpt k l
    | _ => false
  | ⟨_, .invoke a args k⟩, n => match n.form with
    | .invoke b brgs l => a == b && alikeAll args brgs && alikeOpt k l
    | _ => false
  | ⟨_, .cond t y e⟩, n => match n.form with
    | .cond u z f => alike t u && alike y z && alikeOpt e f
    | _ => false
  | ⟨_, .body xs⟩, n => match n.form with | .body ys => alikeAll xs ys | _ => false
  | ⟨_, .block ps b r⟩, n => match n.form with
    | .block qs c s => ps == qs && alike b c && r == s
    | _ => false
  | ⟨_, .blockArgument a o⟩, n => match n.form with
    | .blockArgument b p => a == b && o == p
    | _ => false
  | ⟨_, .classDef a s b⟩, n => match n.form with
    | .classDef c t d => a == c && s == t && alike b d
    | _ => false
  | ⟨_, .methodDef a ps r b⟩, n => match n.form with
    | .methodDef c qs s d => a == c && alikeParams ps qs && r == s && alike b d
    | _ => false
  | ⟨_, .macroDef a args b i⟩, n => match n.form with
    | .macroDef c brgs d j => a == c && alikeArgs args brgs && alike b d && i == j
    | _ => false
  | ⟨_, .quote b⟩, n => match n.form with | .quote c => alike b c | _ => false
  | ⟨_, .unquote b⟩, n => match n.form with | .unquote c => alike b c | _ => false
  | ⟨_, .noop⟩, n => match n.form with | .noop => true | _ => false
  | ⟨_, .error a⟩, n => match n.form with | .error b => a == b | _ => false
termination_by structural x => x

/-- Lists of equal length whose members are alike in pairs. -/
def alikeAll : List Node → List Node → Bool
  | [], ys => ys.isEmpty
  | x :: xs, ys => match ys with
    | y :: ys => alike x y && alikeAll xs ys
    | [] => false
termination_by structural x => x

/-- Both absent, or both present and alike. -/
def alikeOpt : Option Node → Option Node → Bool
  | none, y => y.isNone
  | some x, y => match y with
    | some y => alike x y
    | none => false
termination_by structural x => x

/-- Parameters of equal names, types and kinds whose defaults are alike. -/
def alikeParams : List Parameter → List Parameter → Bool
  | [], qs => qs.isEmpty
  | ⟨a, t, d, k⟩ :: ps, qs => match qs with
    | ⟨b, u, e, l⟩ :: qs => a == b && t == u && alikeOpt d e && k == l && alikeParams ps qs
    | [] => false
termination_by structural x => x

/-- Macro arguments of equal kinds and names whose defaults are alike. -/
def alikeArgs : List Argument → List Argument → Bool
  | [], bs => bs.isEmpty
  | .required a :: as, bs => match bs with
    | .required b :: bs => a == b && alikeArgs as bs
    | _ => false
  | .optional a d :: as, bs => match bs with
    | .optional b e :: bs => a == b && alike d e && alikeArgs as bs
    | _ => false
  | .block a o :: as, bs => match bs with
    | .block b p :: bs => a == b && o == p && alikeArgs as bs
    | _ => false
termination_by structural x => x

end

mutual

/-- The tree with every span set to the empty one. -/
def unplaced : Node → Node
  | ⟨_, .assign a v⟩ => ⟨Span.zero, .assign a (unplaced v)⟩
  | ⟨_, .fieldAssign a v⟩ => ⟨Span.zero, .fieldAssign a (unplaced v)⟩
  | ⟨_, .call t a args b⟩ =>
    ⟨Span.zero, .call (unplaced t) a (unplacedAll args) (unplacedOpt b)⟩
  | ⟨_, .invoke a args b⟩ => ⟨Span.zero, .invoke a (unplacedAll args) (unplacedOpt b)⟩
  | ⟨_, .cond t y e⟩ => ⟨Span.zero, .cond (unplaced t) (unplaced y) (unplacedOpt e)⟩
  | ⟨_, .body xs⟩ => ⟨Span.zero, .body (unplacedAll xs)⟩
  | ⟨_, .block ps b r⟩ => ⟨Span.zero, .block ps (unplaced b) r⟩
  | ⟨_, .classDef a s b⟩ => ⟨Span.zero, .classDef a s (unplaced b)⟩
  | ⟨_, .methodDef a ps r b⟩ => ⟨Span.zero, .methodDef a (unplacedParams ps) r (unplaced b)⟩
  | ⟨_, .macroDef a args b i⟩ => ⟨Span.zero, .macroDef a (unplacedArgs args) (unplaced b) i⟩
  | ⟨_, .quote b⟩ => ⟨Span.zero, .quote (unplaced b)⟩
  | ⟨_, .unquote b⟩ => ⟨Span.zero, .unquote (unplaced b)⟩
  | ⟨_, f⟩ => ⟨Span.zero, f⟩

/-- Every tree of a list with its spans set to the empty one. -/
def unplacedAll : List Node → List Node
  | [] => []
  | n :: ns => unplaced n :: unplacedAll ns

/-- A tree that may be absent, with its spans set to the empty one. -/
def unplacedOpt : Option Node → Option Node
  | none => none
  | some n => some (unplaced n)

/-- Parameters whose defaults have their spans set to the empty one. -/
def unplacedParams : List Parameter → List Parameter
  | [] => []
  | ⟨a, t, d, k⟩ :: ps => ⟨a, t, unplacedOpt d, k⟩ :: unplacedParams ps

/-- Macro arguments whose defaults have their spans set to the empty one. -/
def unplacedArgs : List Argument → List Argument
  | [] => []
  | .required a :: args => .required a :: unplacedArgs args
  | .optional a d :: args => .optional a (unplaced d) :: unplacedArgs args
  | .block a o :: args => .block a o :: unplacedArgs args

end

end Node

end Quasiquote
