import Quasiquote.Proofs.Program.Supply
import Quasiquote.Node.Equality

namespace Quasiquote

/-!
# Phrases that stand for nodes

One rule for each shape of phrase: if its parts stand for some nodes, it stands for
the node that is made of them.  Spans do not count.

* `Reading.Supply.Stands`, `Reading.Supply.StandAll` — a phrase for a node, and phrases
  for nodes in order, with the ordinals that they ask for;
* `Reading.Supply.Operands` — phrases for one operand of a line of operators.
-/

namespace Node

/-- Collapsing a body does not depend on spans. -/
theorem unplaced_collapse (n : Node) : n.collapse.unplaced = n.unplaced.collapse := by
  obtain ⟨s, f⟩ := n
  cases f with
  | body items => rcases items with _ | ⟨x, _ | ⟨y, ys⟩⟩ <;> rfl
  | _ => rfl

theorem statements_isEmpty_unplaced (n : Node) :
    n.unplaced.statements.isEmpty = n.statements.isEmpty := by
  obtain ⟨s, f⟩ := n
  cases f with
  | body items => cases items <;> rfl
  | _ => rfl

end Node

namespace Reading.Supply

variable {env : Reading} (s : Supply env)

attribute [local simp] Node.unplaced Node.unplacedAll Node.unplacedOpt Node.unplacedParams

/-- A phrase stands for a node, spans aside, and asks for the ordinals `is`. -/
def Stands (ph : Phrase Rule) (n : Node) (is : List Nat) : Prop :=
  s.Yields (env.node ph) is fun m => m.unplaced = n.unplaced

/-- Phrases stand for nodes in order. -/
def StandAll (phs : List (Phrase Rule)) (ns : List Node) (is : List Nat) : Prop :=
  s.Yields (env.nodes phs) is fun ms => Node.unplacedAll ms = Node.unplacedAll ns

/-- Phrases stand for what comes after the first body of a conditional. -/
def StandsElse (phs : List (Phrase Rule)) (n : Option Node) (is : List Nat) : Prop :=
  s.Yields (env.otherwise phs) is fun m => Node.unplacedOpt m = Node.unplacedOpt n

/-- Phrases stand for the parameters of a method. -/
def StandParams (phs : List (Phrase Rule)) (ps : List Parameter) (is : List Nat) : Prop :=
  s.Yields (env.parameters phs) is fun qs => Node.unplacedParams qs = Node.unplacedParams ps

/-- Phrases are one operand of a line, whatever else stands in the line: signs and a
    value, which make a node. -/
def Operands (phs : List (Phrase Rule)) (n : Node) (is : List Nat) : Prop :=
  ∀ (more : List (Phrase Rule)) (js : List Nat) (Q : List Operand → Prop),
    s.Yields (env.operands more) js Q →
    s.Yields (env.operands (phs ++ more)) (is ++ js) fun os =>
      ∃ m rest, m.unplaced = n.unplaced ∧ Q rest ∧
        Operand.applySigns env.cover os = .value m :: Operand.applySigns env.cover rest

/-- A phrase and suffixes make a node, whatever other suffixes follow. -/
def Chained (first : Phrase Rule) (suffixes : List (Phrase Rule)) (n : Node) (is : List Nat) :
    Prop :=
  ∀ (more : List (Phrase Rule)) (js : List Nat) (Q : Node → Prop),
    (∀ m, m.unplaced = n.unplaced → s.Yields (env.chain m more) js Q) →
    s.Yields (env.node first >>= fun m => env.chain m (suffixes ++ more)) (is ++ js) Q

variable {s} {ph ph' : Phrase Rule} {phs : List (Phrase Rule)} {n n' : Node} {ns : List Node}
  {is js ks : List Nat} {sp sp' sp'' nsp : Span} {t t' : String} {x : String}

theorem StandAll.nil : s.StandAll [] [] [] := Yields.pure rfl

theorem StandAll.cons (h : s.Stands ph n is) (hs : s.StandAll phs ns js) :
    s.StandAll (ph :: phs) (n :: ns) (is ++ js) := by
  refine Yields.bind h fun m hm => ?_
  refine Yields.map hs fun ms hms => ?_
  simp only [Node.unplacedAll, hm, hms]

/-! ### Literals and names -/

theorem Stands.integer {i : Int} (hi : integerOf t = i) (hfits : Word.fits i = true) :
    s.Stands ⟨.integer, sp, t, phs⟩ ⟨nsp, .int i⟩ [] := by
  have hinteger : env.node ⟨.integer, sp, t, phs⟩ = Pure.pure ⟨env.place sp, .int i⟩ := by
    show env.integer t sp = _
    rw [Reading.integer, hi, if_pos hfits]
  rw [Stands, hinteger]
  exact Yields.pure rfl

theorem Stands.float {v : Float} (hv : floatOf t = v) :
    s.Stands ⟨.float, sp, t, phs⟩ ⟨nsp, .float v⟩ [] := by
  rw [← hv]
  exact Yields.pure rfl

theorem Stands.str {v : String} {inside : List (Phrase Rule)}
    (hv : String.ofList (Literal.unescape t'.toList) = v) :
    s.Stands ⟨.string, sp, t, [⟨.stringInner, sp', t', inside⟩]⟩ ⟨nsp, .str v⟩ [] := by
  rw [← hv]
  exact Yields.pure rfl

theorem Stands.kwTrue : s.Stands ⟨.kwTrue, sp, t, phs⟩ ⟨nsp, .bool true⟩ [] := Yields.pure rfl

theorem Stands.kwFalse : s.Stands ⟨.kwFalse, sp, t, phs⟩ ⟨nsp, .bool false⟩ [] := Yields.pure rfl

theorem Stands.kwNil : s.Stands ⟨.kwNil, sp, t, phs⟩ ⟨nsp, .nil⟩ [] := Yields.pure rfl

theorem Stands.kwSelf : s.Stands ⟨.kwSelf, sp, t, phs⟩ ⟨nsp, .self⟩ [] := Yields.pure rfl

theorem Stands.ident : s.Stands ⟨.name, sp, x, phs⟩ ⟨nsp, .ident x⟩ [] := Yields.pure rfl

theorem Stands.constant : s.Stands ⟨.constant, sp, x, phs⟩ ⟨nsp, .constant x⟩ [] :=
  Yields.pure rfl

theorem Stands.field (ht : String.ofList (t.toList.drop 1) = x) :
    s.Stands ⟨.field, sp, t, phs⟩ ⟨nsp, .field x⟩ [] := by
  rw [← ht]
  exact Yields.pure rfl

/-! ### Assignments, operands and chains -/

theorem Stands.assign (h : s.Stands ph n is) :
    s.Stands ⟨.assignment, sp, t, [⟨.name, sp', x, phs⟩, ph]⟩ ⟨nsp, .assign x n⟩ is := by
  refine Yields.map h fun m hm => ?_
  simp only [Node.unplaced, hm]

theorem Stands.fieldAssign (ht : String.ofList (t'.toList.drop 1) = x) (h : s.Stands ph n is) :
    s.Stands ⟨.assignment, sp, t, [⟨.field, sp', t', phs⟩, ph]⟩ ⟨nsp, .fieldAssign x n⟩ is := by
  rw [← ht]
  refine Yields.map h fun m hm => ?_
  simp only [Node.unplaced, hm]

theorem Stands.ternary (h : s.Stands ph n is) : s.Stands ⟨.ternary, sp, t, [ph]⟩ n is := h

/-- Whether a phrase is a value in a line of operators. -/
def isOperand : Rule → Bool
  | .notOp | .negOp | .infixOp => false
  | _ => true

theorem Operands.value {r : Rule} (hr : isOperand r = true) (h : s.Stands ⟨r, sp, t, phs⟩ n is) :
    s.Operands [⟨r, sp, t, phs⟩] n is := fun more js Q hmore => by
  have hvalue : env.operands (⟨r, sp, t, phs⟩ :: more) = (do
      let m ← env.node ⟨r, sp, t, phs⟩
      return .value m :: (← env.operands more)) := by
    cases r <;> first | rfl | cases hr
  rw [List.singleton_append, hvalue]
  exact Yields.bind h fun m hm => Yields.map hmore fun os hos =>
    ⟨m, os, hm, hos, rfl⟩

theorem Operands.sign {name : String}
    (hsign : ∀ rest, env.operands (ph :: rest) =
      (env.operands rest >>= fun os => Pure.pure (.sign name sp :: os)))
    (h : s.Operands phs n is) : s.Operands (ph :: phs) ⟨nsp, .call n name [] none⟩ is :=
  fun more js Q hmore => by
    rw [List.cons_append, hsign]
    refine Yields.map (h more js Q hmore) fun os hos => ?_
    obtain ⟨m, rest, hm, hrest, hsigns⟩ := hos
    refine ⟨⟨env.cover sp m.span, .call m name [] none⟩, rest, ?_, hrest, ?_⟩
    · simp only [Node.unplaced, Node.unplacedAll, hm]
    · rw [Operand.applySigns, hsigns]

theorem Operands.not (h : s.Operands phs n is) :
    s.Operands (⟨.notOp, sp, t, []⟩ :: phs) ⟨nsp, .call n "!" [] none⟩ is :=
  h.sign fun _ => rfl

theorem Operands.neg (h : s.Operands phs n is) :
    s.Operands (⟨.negOp, sp, t, []⟩ :: phs) ⟨nsp, .call n "-@" [] none⟩ is :=
  h.sign fun _ => rfl

/-- A line of one operand. -/
theorem Stands.single (h : s.Operands phs n is) : s.Stands ⟨.binary, sp, t, phs⟩ n is := by
  have hline := h [] [] (· = []) (Yields.pure rfl)
  rw [List.append_nil, List.append_nil] at hline
  refine Yields.bind_pure hline fun os hos => ?_
  obtain ⟨m, rest, hm, rfl, hsigns⟩ := hos
  refine ⟨m, ?_, hm⟩
  rw [Operand.tree, hsigns]
  rfl

/-- A line of two operands. -/
theorem Stands.between (h : s.Operands phs n is) {phs' : List (Phrase Rule)}
    (h' : s.Operands phs' n' js) :
    s.Stands ⟨.binary, sp, t, phs ++ ⟨.infixOp, sp', x, []⟩ :: phs'⟩
      ⟨nsp, .call n x [n'] none⟩ (is ++ js) := by
  have hright := h' [] [] (· = []) (Yields.pure rfl)
  rw [List.append_nil, List.append_nil] at hright
  have hmiddle : s.Yields (env.operands (⟨.infixOp, sp', x, []⟩ :: phs')) js fun os =>
      ∃ m, m.unplaced = n'.unplaced ∧ Operand.applySigns env.cover os =
        [.operator x, .value m] := by
    refine Yields.map hright fun os hos => ?_
    obtain ⟨m, rest, hm, rfl, hsigns⟩ := hos
    refine ⟨m, hm, ?_⟩
    show .operator x :: Operand.applySigns env.cover os = _
    rw [hsigns]
    rfl
  refine Yields.bind_pure (h _ js _ hmiddle) fun os hos => ?_
  obtain ⟨m, rest, hm, ⟨m', hm', hrest⟩, hsigns⟩ := hos
  refine ⟨Operand.apply env.cover m x m', ?_, ?_⟩
  · rw [Operand.tree, hsigns, hrest]
    rfl
  · simp only [Operand.apply, Node.unplaced, Node.unplacedAll, hm, hm']

/-! ### Chains of calls -/

section Chains

variable {first : Phrase Rule} {xs ys : List (Phrase Rule)} {b : Phrase Rule} {blk : Node}

theorem Chained.nil (h : s.Stands first n is) : s.Chained first [] n is :=
  fun _ _ _ hmore => Yields.bind h hmore

theorem Chained.stands (h : s.Chained first xs n is) :
    s.Stands ⟨.chain, sp, t, first :: xs⟩ n is := by
  have := h [] [] (fun m => m.unplaced = n.unplaced) fun m hm => Yields.pure hm
  rwa [List.append_nil, List.append_nil] at this

variable (h : s.Chained first xs n is)
include h

theorem Chained.bare : s.Chained first (xs ++ [⟨.suffix, sp, t, [⟨.methodName, sp', x, phs⟩]⟩])
    ⟨nsp, .call n x [] none⟩ is := fun more js Q hmore => by
  rw [List.append_assoc]
  refine h _ js Q fun m hm => hmore ⟨env.cover m.span (env.place sp), .call m x [] none⟩ ?_
  simp only [Node.unplaced, Node.unplacedAll, hm]

theorem Chained.args (hargs : s.StandAll ys ns js) :
    s.Chained first
      (xs ++ [⟨.suffix, sp, t, [⟨.methodName, sp', x, phs⟩, ⟨.callArgs, sp'', t', ys⟩]⟩])
      ⟨nsp, .call n x ns none⟩ (is ++ js) := fun more ks Q hmore => by
  rw [List.append_assoc, List.append_assoc]
  refine h _ (js ++ ks) Q fun m hm => Yields.bind hargs fun as has =>
    hmore ⟨env.cover m.span (env.place sp), .call m x as none⟩ ?_
  simp only [Node.unplaced, hm, has]

theorem Chained.block {r : Rule} (hr : r ≠ .callArgs) (hb : s.Stands ⟨r, sp'', t', ys⟩ blk js) :
    s.Chained first
      (xs ++ [⟨.suffix, sp, t, [⟨.methodName, sp', x, phs⟩, ⟨r, sp'', t', ys⟩]⟩])
      ⟨nsp, .call n x [] (some blk)⟩ (is ++ js) := fun more ks Q hmore => by
  rw [List.append_assoc, List.append_assoc]
  refine h _ (js ++ ks) Q fun m hm => ?_
  have hchain : env.chain m (⟨.suffix, sp, t, [⟨.methodName, sp', x, phs⟩, ⟨r, sp'', t', ys⟩]⟩ ::
      more) = (env.node ⟨r, sp'', t', ys⟩ >>= fun b =>
        env.chain ⟨env.cover m.span (env.place sp), .call m x [] (some b)⟩ more) := by
    cases r <;> first | rfl | exact absurd rfl hr
  rw [List.singleton_append, hchain]
  refine Yields.bind hb fun b hb =>
    hmore ⟨env.cover m.span (env.place sp), .call m x [] (some b)⟩ ?_
  simp only [Node.unplaced, Node.unplacedAll, Node.unplacedOpt, hm, hb]

theorem Chained.argsBlock (hargs : s.StandAll ys ns js) (hb : s.Stands b blk ks) :
    s.Chained first
      (xs ++ [⟨.suffix, sp, t, [⟨.methodName, sp', x, phs⟩, ⟨.callArgs, sp'', t', ys⟩, b]⟩])
      ⟨nsp, .call n x ns (some blk)⟩ (is ++ js ++ ks) := fun more ls Q hmore => by
  rw [List.append_assoc, List.append_assoc, List.append_assoc]
  refine h _ (js ++ (ks ++ ls)) Q fun m hm => Yields.bind hargs fun as has =>
    Yields.bind hb fun b hb =>
      hmore ⟨env.cover m.span (env.place sp), .call m x as (some b)⟩ ?_
  simp only [Node.unplaced, Node.unplacedOpt, hm, has, hb]

end Chains

/-! ### Bodies, calls and blocks -/

theorem Stands.body (h : s.StandAll phs ns is) : s.Stands ⟨.body, sp, t, phs⟩ ⟨nsp, .body ns⟩ is := by
  refine Yields.map h fun ms hms => ?_
  simp only [Node.unplaced, hms]

theorem Stands.parenthesized (hne : ns ≠ []) (h : s.Stands ph ⟨nsp, .body ns⟩ is) :
    s.Stands ⟨.parenthesized, sp, t, [ph]⟩ (Node.mk nsp (.body ns)).collapse is := by
  refine Yields.bind_pure h fun m hm => ⟨_, rfl, ?_⟩
  have hitems : m.statements.isEmpty = false := by
    rw [← Node.statements_isEmpty_unplaced, hm, Node.statements_isEmpty_unplaced]
    simpa using hne
  rw [hitems, if_neg Bool.false_ne_true, Node.unplaced_collapse, hm, Node.unplaced_collapse]

theorem Stands.invoke {name : Phrase Rule} (hx : name.text = x) (h : s.StandAll phs ns is) :
    s.Stands ⟨.functionCall, sp, t, [name, ⟨.callArgs, sp'', t', phs⟩]⟩
      ⟨nsp, .invoke x ns none⟩ is := by
  obtain ⟨r, sp', x', parts⟩ := name
  cases hx
  refine Yields.map h fun ms hms => ?_
  simp only [Node.unplaced, Phrase.text, Node.unplacedOpt, hms]

theorem Stands.invokeBlock {name : Phrase Rule} (hx : name.text = x) (h : s.StandAll phs ns is)
    (hb : s.Stands ph n js) :
    s.Stands ⟨.functionCall, sp, t, [name, ⟨.callArgs, sp'', t', phs⟩, ph]⟩
      ⟨nsp, .invoke x ns (some n)⟩ (is ++ js) := by
  obtain ⟨r, sp', x', parts⟩ := name
  cases hx
  refine Yields.bind h fun ms hms => Yields.map hb fun m hm => ?_
  simp only [Node.unplaced, Phrase.text, Node.unplacedOpt, hms, hm]

theorem Stands.blockArgument {optional : Bool} (hphs : phs.length = if optional then 1 else 0) :
    s.Stands ⟨.blockArg, sp, t, ⟨.name, sp', x, []⟩ :: phs⟩ ⟨nsp, .blockArgument x optional⟩ [] := by
  cases optional with
  | false =>
    obtain rfl := List.length_eq_zero_iff.1 hphs
    exact Yields.pure rfl
  | true =>
    obtain ⟨ph, rfl⟩ := List.length_eq_one_iff.1 hphs
    exact Yields.pure rfl

/-- The phrases of the parameters of a block, if there are any. -/
def blockParamPhrases (sp : Span) (ps : List (Phrase Rule)) : List (Phrase Rule) :=
  if ps.isEmpty then [] else [⟨.blockParams, sp, "", ps⟩]

theorem Stands.braceBlock {ps : List (Phrase Rule)} (h : s.Stands ph n is) :
    s.Stands ⟨.braceBlock, sp, t, blockParamPhrases sp' ps ++ [ph]⟩
      ⟨nsp, .block (ps.map Phrase.text) n true⟩ is := by
  cases ps with
  | nil =>
    refine Yields.map h fun m hm => ?_
    simp only [Node.unplaced, List.map_nil, hm]
  | cons p ps =>
    refine Yields.map h fun m hm => ?_
    simp only [Node.unplaced, hm]

theorem Stands.doBlock {ps : List (Phrase Rule)} (h : s.Stands ph n is) :
    s.Stands ⟨.doBlock, sp, t, blockParamPhrases sp' ps ++ [ph]⟩
      ⟨nsp, .block (ps.map Phrase.text) n false⟩ is := by
  cases ps with
  | nil =>
    refine Yields.map h fun m hm => ?_
    simp only [Node.unplaced, List.map_nil, hm]
  | cons p ps =>
    refine Yields.map h fun m hm => ?_
    simp only [Node.unplaced, hm]

/-! ### Templates -/

theorem Stands.quote {ps : List String} {brace : Bool}
    (h : s.Stands ph ⟨nsp, .block ps n brace⟩ is) :
    s.Stands ⟨.quoted, sp, t, [ph]⟩ ⟨nsp, .quote n⟩ is := by
  refine Yields.bind_pure h fun m hm => ?_
  obtain ⟨sp', f⟩ := m
  cases f <;> simp only [Node.unplaced, Node.mk.injEq, Form.block.injEq, reduceCtorEq,
    and_false] at hm
  exact ⟨_, rfl, by simp only [Node.unplaced, hm]⟩

theorem Stands.unquote {r : Rule} (hr : r ≠ .holeRef) (h : s.Stands ⟨r, sp', t', phs⟩ n is) :
    s.Stands ⟨.hole, sp, t, [⟨r, sp', t', phs⟩]⟩ ⟨nsp, .unquote n⟩ is := by
  have hhole : env.node ⟨.hole, sp, t, [⟨r, sp', t', phs⟩]⟩ =
      (env.node ⟨r, sp', t', phs⟩ >>= fun m => Pure.pure ⟨env.place sp, .unquote m⟩) := by
    cases r <;> first | rfl | exact absurd rfl hr
  rw [Stands, hhole]
  refine Yields.map h fun m hm => ?_
  simp only [Node.unplaced, hm]

/-- A placeholder stands for the value of its ordinal. -/
theorem Stands.placeholder {i : Nat} (hv : s.value i = some n)
    (hdigits : Decimal.natOfDigits x.toList = i) :
    s.Stands ⟨.hole, sp, t, [⟨.holeRef, sp', t', [⟨.holeIndex, sp'', x, phs⟩]⟩]⟩ n [i] := by
  obtain ⟨hresolves, hcount⟩ := s.available hv
  intro st hst
  obtain ⟨hok, hserved⟩ := s.resolved hst hv
  refine ⟨hserved, n, ?_, rfl⟩
  have hnode : env.node ⟨.hole, sp, t, [⟨.holeRef, sp', t', [⟨.holeIndex, sp'', x, phs⟩]⟩]⟩ =
      (Scopes.resolve i).adapt fun e => e.toDiagnostic "parse" env.source (env.place sp) := by
    show env.placeholderValue x sp = _
    simp only [placeholderValue, hdigits, if_pos hcount, if_pos hresolves]
  rw [hnode]
  show ((Scopes.resolved i st).1.mapError _, (Scopes.resolved i st).2) = _
  rw [hok]
  rfl

/-! ### Conditionals and definitions -/

section Definitions

variable {test body : Phrase Rule} {c yes : Node} {no : Option Node}

theorem StandsElse.nil : s.StandsElse [] none [] := Yields.pure rfl

theorem StandsElse.elseClause (h : s.Stands ph n is) :
    s.StandsElse [⟨.elseClause, sp, t, [ph]⟩] (some n.collapse) is := by
  refine Yields.map h fun m hm => ?_
  simp only [Node.unplacedOpt, Node.unplaced_collapse, hm]

theorem Stands.cond (htest : s.Stands test c is) (hyes : s.Stands body yes js)
    (hno : s.StandsElse phs no ks) :
    s.Stands ⟨.ifExpr, sp, t, test :: body :: phs⟩ ⟨nsp, .cond c yes.collapse no⟩
      (is ++ (js ++ ks)) := by
  refine Yields.bind htest fun m hm => Yields.bind hyes fun y hy => Yields.map hno fun o ho => ?_
  simp only [Node.unplaced, Node.unplaced_collapse, hm, hy, ho]

/-- The phrase of a superclass, if there is one. -/
def superclassPhrases (sp : Span) (superclass : Option String) : List (Phrase Rule) :=
  superclass.toList.map fun name => ⟨.constant, sp, name, []⟩

theorem Stands.classDef {superclass : Option String} (h : s.Stands body n is) :
    s.Stands ⟨.classDef, sp, t, ⟨.constant, sp', x, []⟩ :: superclassPhrases sp'' superclass ++ [body]⟩
      ⟨nsp, .classDef x superclass n⟩ is := by
  cases superclass with
  | none =>
    refine Yields.map h fun m hm => ?_
    simp only [Node.unplaced, hm]
  | some y =>
    refine Yields.map h fun m hm => ?_
    simp only [Node.unplaced, hm]

/-- The phrase of the type of a result, if it is declared. -/
def returnTypePhrases (sp : Span) (returns : Option String) : List (Phrase Rule) :=
  returns.toList.map fun name => ⟨.returnType, sp, "", [⟨.typeName, sp, name, []⟩]⟩

section Methods

variable {ps qs : List Parameter} {returns : Option String} {parts : List (Phrase Rule)}

/-- The type of the result and the body of a method. -/
theorem yields_method (hqs : Node.unplacedParams qs = Node.unplacedParams ps)
    (h : s.Stands ⟨.body, sp'', t', parts⟩ n js) :
    s.Yields (env.method sp x qs none
      (returnTypePhrases sp' returns ++ [⟨.body, sp'', t', parts⟩])) js
      fun m => m.unplaced = (Node.mk nsp (.methodDef x ps returns n)).unplaced := by
  cases returns with
  | none =>
    refine Yields.map h fun m hm => ?_
    simp only [Node.unplaced, hqs, hm]
  | some y =>
    refine Yields.map h fun m hm => ?_
    simp only [Node.unplaced, hqs, hm]

theorem Stands.method (h : s.Stands ⟨.body, sp'', t', parts⟩ n js) :
    s.Stands ⟨.methodDef, sp, t, ⟨.methodName, sp', x, []⟩ ::
        (returnTypePhrases sp' returns ++ [⟨.body, sp'', t', parts⟩])⟩
      ⟨nsp, .methodDef x [] returns n⟩ js := yields_method rfl h

theorem Stands.methodParams (hps : s.StandParams phs ps is)
    (h : s.Stands ⟨.body, sp'', t', parts⟩ n js) :
    s.Stands ⟨.methodDef, sp, t, ⟨.methodName, sp', x, []⟩ :: ⟨.paramList, sp', t, phs⟩ ::
        (returnTypePhrases sp' returns ++ [⟨.body, sp'', t', parts⟩])⟩
      ⟨nsp, .methodDef x ps returns n⟩ (is ++ js) :=
  Yields.bind hps fun _ hqs => yields_method hqs h

theorem StandParams.nil : s.StandParams [] [] [] := Yields.pure rfl

/-- The phrase of the mark of a block parameter. -/
def markPhrases (sp : Span) (block : Bool) : List (Phrase Rule) :=
  if block then [⟨.blockMarker, sp, "", []⟩] else []

/-- The phrase of the type of a parameter, if it is declared. -/
def typePhrases (sp : Span) (type : Option String) : List (Phrase Rule) :=
  type.toList.map fun name => ⟨.typeName, sp, name, []⟩

/-- Phrases stand for a default value, if there is one. -/
def StandsDefault (s : Supply env) (phs : List (Phrase Rule)) (d : Option Node) (is : List Nat) :
    Prop :=
  (phs = [] ∧ d = none ∧ is = []) ∨
    ∃ r sp t parts n, r ≠ .typeName ∧ phs = [⟨r, sp, t, parts⟩] ∧ d = some n ∧
      s.Stands ⟨r, sp, t, parts⟩ n is

theorem yields_parameter {type : Option String} {d : Option Node} {block : Bool}
    (hd : s.StandsDefault phs d is) :
    s.Yields (env.parameter sp x none block (typePhrases sp' type ++ phs)) is
      fun p => Node.unplacedParams [p] = Node.unplacedParams [⟨x, type, d, block⟩] := by
  rcases hd with ⟨rfl, rfl, rfl⟩ | ⟨r, sp, t, parts, n, hr, rfl, rfl, hn⟩
  · cases type <;> exact Yields.pure rfl
  · have hvalue (sp' : Span) : env.parameter sp' x type block [⟨r, sp, t, parts⟩] =
        (env.node ⟨r, sp, t, parts⟩ >>= fun m => Pure.pure ⟨x, type, some m, block⟩) := by
      cases r <;> first | rfl | exact absurd rfl hr
    have htype (sp'' : Span) :
        env.parameter sp'' x none block (typePhrases sp' type ++ [⟨r, sp, t, parts⟩]) =
          env.parameter sp'' x type block [⟨r, sp, t, parts⟩] := by
      cases type <;> rfl
    rw [htype, hvalue]
    refine Yields.map hn fun m hm => ?_
    simp only [Node.unplacedParams, Node.unplacedOpt, hm]

theorem StandParams.cons {type : Option String} {d : Option Node} {block : Bool}
    {phs' : List (Phrase Rule)} (hd : s.StandsDefault phs d is) (hps : s.StandParams phs' ps js) :
    s.StandParams
      (⟨.param, sp, t, markPhrases sp' block ++ ⟨.name, sp'', x, []⟩ ::
        (typePhrases sp' type ++ phs)⟩ :: phs')
      (⟨x, type, d, block⟩ :: ps) (is ++ js) := by
  have hparam : s.Yields (env.parameter (env.place sp) x none block (typePhrases sp' type ++ phs)) is
      fun p => Node.unplacedParams [p] = Node.unplacedParams [⟨x, type, d, block⟩] :=
    yields_parameter hd
  cases block <;>
  · refine Yields.bind hparam fun p hp => Yields.map hps fun qs hqs => ?_
    obtain ⟨y, u, e, k⟩ := p
    simp only [Node.unplacedParams, List.cons.injEq, and_true] at hp ⊢
    exact ⟨hp, hqs⟩

end Methods

end Definitions

end Reading.Supply

end Quasiquote
