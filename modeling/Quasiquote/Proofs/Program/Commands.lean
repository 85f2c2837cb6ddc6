import Quasiquote.Proofs.Program.Shapes
import Quasiquote.Proofs.Program.Splices
import Quasiquote.Proofs.State

namespace Quasiquote

/-!
# Commands — calls without parentheses inside each other

The grammar gives the `do` block at the end of nested commands to the innermost call.  Each
command takes it over from its last argument, so that the outermost one ends up with it.

* `Reading.Nest` — commands that are the last arguments of each other;
* `Reading.node_nest` — what they are read as, whatever the innermost argument is;
* `Reading.Nest.trailing_block` — the block of a call that ends the innermost command goes to the
  outermost one;
* `Reading.Nest.opened_block` — so does one in parentheses around that call;
* `Reading.Nest.kept_block` — behind an operator, a sign, an assignment or a choice it stays.
-/

namespace Reading

/-! ### Taking blocks -/

theorem takeLastDoBlock_append (ns : List Node) (n : Node) :
    takeLastDoBlock (ns ++ [n]) = (ns ++ [(takeDoBlock n).1], (takeDoBlock n).2) := by
  induction ns with
  | nil => rfl
  | cons m ns ih =>
    rw [List.cons_append, takeLastDoBlock, ih]
    · rfl
    · simp

/-- What a node gives away can be taken from the command that has got it. -/
theorem takeDoBlock_invoke (s : Span) (name : String) (args : List Node) (n : Node) :
    takeDoBlock ⟨s, .invoke name args (takeDoBlock n).2⟩ =
      (⟨s, .invoke name args none⟩, (takeDoBlock n).2) := by
  rcases htake : takeDoBlock n with ⟨w, _ | b⟩
  · rfl
  · obtain ⟨bs, params, body, rfl⟩ := takeDoBlock_some htake
    rfl

/-- A node from which a block was taken has none left. -/
theorem takeDoBlock_again (n : Node) :
    takeDoBlock (takeDoBlock n).1 = ((takeDoBlock n).1, none) := by
  cases htake : (takeDoBlock n).2 with
  | none =>
    have hself := takeDoBlock_eq_self htake
    rw [hself]
    exact Prod.ext hself htake
  | some b =>
    revert htake
    fun_cases takeDoBlock n
    · exact fun _ => rfl
    · exact fun _ => rfl
    · rintro ⟨⟩

/-! ### Nested commands -/

/-- A command without its last argument. -/
structure Head (α : Type) where
  span : Span
  name : String
  args : List α

/-- An expression that is made of one phrase, without operators, suffixes and choices. -/
inductive Bare : Phrase Rule → Phrase Rule → Prop where
  | mk {s s' s'' : Span} {t t' t'' : String} {p : Phrase Rule} :
    Bare ⟨.ternary, s, t, [⟨.binary, s', t', [⟨.chain, s'', t'', [p]⟩]⟩]⟩ p

/-- A command without a block of its own, and an expression: the last argument of the command, or
    that of the command which is the last argument, and so on. -/
inductive Nest :
    Phrase Rule → Head (Phrase Rule) → List (Head (Phrase Rule)) → Phrase Rule → Prop where
  | one {s s' : Span} {t t' : String} {name e : Phrase Rule} {args : List (Phrase Rule)} :
    Nest ⟨.command, s, t, [name, ⟨.commandArgs, s', t', args ++ [e]⟩]⟩ ⟨s, name.text, args⟩ [] e
  | more {s s' : Span} {t t' : String} {name e p q : Phrase Rule} {args : List (Phrase Rule)}
      {h : Head (Phrase Rule)} {hs : List (Head (Phrase Rule))} :
    Bare e p → Nest p h hs q →
      Nest ⟨.command, s, t, [name, ⟨.commandArgs, s', t', args ++ [e]⟩]⟩ ⟨s, name.text, args⟩
        (h :: hs) q

theorem Bare.formed {e p : Phrase Rule} (h : Bare e p) (he : language.Formed e) :
    language.Formed p := by
  obtain ⟨⟩ := h
  have hbinary := he.of_mem_parts List.mem_cons_self
  have hchain := hbinary.of_mem_parts List.mem_cons_self
  exact hchain.of_mem_parts List.mem_cons_self

theorem Bare.sizeOf_lt {e p : Phrase Rule} (h : Bare e p) : sizeOf p < sizeOf e := by
  obtain ⟨⟩ := h
  simp only [Phrase.mk.sizeOf_spec, List.cons.sizeOf_spec]
  omega

/-- Calls without blocks around a node, the outermost one first. -/
def wrap : List (Head Node) → Node → Node
  | [], n => n
  | h :: hs, n => ⟨h.span, .invoke h.name (h.args ++ [wrap hs n]) none⟩

variable (env : Reading)

/-- What is read of a command before its last argument. -/
def head (h : Head (Phrase Rule)) : Reader (Head Node) := do
  return ⟨env.place h.span, h.name, ← env.nodes h.args⟩

/-- What is read of nested commands before the innermost argument. -/
def heads (h : Head (Phrase Rule)) (hs : List (Head (Phrase Rule))) :
    Reader (Head Node × List (Head Node)) := do
  return (← env.head h, ← hs.mapM env.head)

variable {env} {p q e b : Phrase Rule} {h : Head (Phrase Rule)} {hs : List (Head (Phrase Rule))}
  {n : Node} {st st' : Scopes Node}

theorem nodes_append (ps : List (Phrase Rule)) (p : Phrase Rule) :
    env.nodes (ps ++ [p]) = do
      let ns ← env.nodes ps
      let n ← env.node p
      return ns ++ [n] := by
  induction ps with
  | nil => simp [nodes]
  | cons q ps ih => simp [nodes, ih]

theorem node_chain {s s' s'' : Span} {t t' t'' : String} {parts : List (Phrase Rule)} :
    env.node ⟨.ternary, s, t, [⟨.binary, s', t', [⟨.chain, s'', t'', parts⟩]⟩]⟩ =
      env.node ⟨.chain, s'', t'', parts⟩ := by
  have hone : env.operands [⟨.chain, s'', t'', parts⟩] =
      env.node ⟨.chain, s'', t'', parts⟩ >>= fun n => Pure.pure [.value n] := rfl
  -- a line that is one value makes that value
  obtain ⟨tree, hline, hvalue⟩ : ∃ tree : List Operand → Reader Node,
      env.node ⟨.ternary, s, t, [⟨.binary, s', t', [⟨.chain, s'', t'', parts⟩]⟩]⟩ =
        env.operands [⟨.chain, s'', t'', parts⟩] >>= tree ∧
      ∀ n, tree [.value n] = Pure.pure n := ⟨_, rfl, fun _ => rfl⟩
  rw [hline, hone, bind_assoc]
  simp only [pure_bind, hvalue, bind_pure]

theorem node_bare (h : Bare e p) : env.node e = env.node p := by
  obtain ⟨⟩ := h
  rw [node_chain]
  exact bind_pure _

/-- Parentheses around one expression leave no trace. -/
theorem node_parenthesized {s s' : Span} {t t' : String} :
    env.node ⟨.parenthesized, s, t, [⟨.body, s', t', [e]⟩]⟩ = env.node e := by
  have hbody : env.node ⟨.body, s', t', [e]⟩ =
      env.nodes ([] ++ [e]) >>= fun ns => Pure.pure ⟨env.place s', .body ns⟩ := rfl
  show (env.node ⟨.body, s', t', [e]⟩ >>= fun n =>
    Pure.pure (if n.statements.isEmpty then ⟨env.place s, .nil⟩ else n.collapse)) = _
  rw [hbody, nodes_append]
  simp [nodes, Node.statements, Node.collapse]

theorem node_command {s s' : Span} {t t' : String} {name : Phrase Rule}
    {args : List (Phrase Rule)} :
    env.node ⟨.command, s, t, [name, ⟨.commandArgs, s', t', args ++ [e]⟩]⟩ = do
      let h ← env.head ⟨s, name.text, args⟩
      let n ← env.node e
      return ⟨h.span, .invoke h.name (h.args ++ [(takeDoBlock n).1]) (takeDoBlock n).2⟩ := by
  obtain ⟨r, ns, x, np⟩ := name
  show (env.nodes (args ++ [e]) >>= fun ns => Pure.pure (command (env.place s) x ns none)) = _
  rw [nodes_append]
  simp [head, command, takeLastDoBlock_append, Phrase.text]

/-- Nested commands are read in order.  The block of the innermost argument goes to the outermost
    command and the others have none. -/
theorem node_nest (hn : Nest p h hs q) : env.node p = do
    let (c, cs) ← env.heads h hs
    let m ← env.node q
    return ⟨c.span, .invoke c.name (c.args ++ [wrap cs (takeDoBlock m).1]) (takeDoBlock m).2⟩ := by
  induction hn with
  | one => simp [node_command, heads, wrap]
  | more hbare _ ih =>
    rw [node_command, node_bare hbare, ih]
    simp [takeDoBlock_invoke, heads, wrap]

/-- A reading of nested commands that succeeds. -/
theorem Nest.run (hn : Nest p h hs q) (hrun : (env.node p).run st = (.ok n, st')) :
    ∃ c cs m st₁, (env.heads h hs).run st = (.ok (c, cs), st₁) ∧
      (env.node q).run st₁ = (.ok m, st') ∧
      n = ⟨c.span, .invoke c.name (c.args ++ [wrap cs (takeDoBlock m).1]) (takeDoBlock m).2⟩ := by
  rw [node_nest hn] at hrun
  obtain ⟨⟨c, cs⟩, st₁, hheads, hrest⟩ := exists_of_run_bind hrun
  obtain ⟨m, st₂, hm, hpure⟩ := exists_of_run_bind hrest
  cases hpure
  exact ⟨c, cs, m, st₁, hheads, hm, rfl⟩

/-- Every command of the grammar has a block of its own, or is a nest down to an expression that is
    no further command of that kind. -/
theorem exists_nest (hp : Is .command p) :
    (∃ name args block, p.parts = [name, args, block] ∧ Is .doBlock block) ∨
      ∃ h hs q, Nest p h hs q ∧ IsExpression q ∧
        ∀ p', Bare q p' → p'.rule = .command → p'.parts.length = 3 := by
  suffices hall : ∀ k p, sizeOf p < k → Is .command p → p.parts.length ≠ 3 → ∃ h hs q,
      Nest p h hs q ∧ IsExpression q ∧ ∀ p', Bare q p' → p'.rule = .command → p'.parts.length = 3 by
    obtain ⟨r, s, t, parts⟩ := p
    obtain ⟨rfl, hf⟩ := hp
    obtain ⟨name, args, _ | block, rfl, -, -, hblock⟩ := shape_command hf
    · exact .inr (hall _ _ (Nat.lt_succ_self _) ⟨rfl, hf⟩ (by simp [Phrase.parts]))
    · exact .inl ⟨name, args, block, rfl, hblock block rfl⟩
  intro k
  induction k with
  | zero => exact fun p hlt => absurd hlt (Nat.not_lt_zero _)
  | succ k ih =>
    intro p hlt hp hlength
    obtain ⟨r, s, t, parts⟩ := p
    obtain ⟨rfl, hf⟩ := hp
    obtain ⟨name, args, _ | block, rfl, -, hargs, -⟩ := shape_command hf
    · obtain ⟨r, s', t', args⟩ := args
      obtain ⟨rfl, hargs⟩ := hargs
      obtain ⟨hne, hall⟩ := shape_commandArgs hargs
      obtain ⟨front, e, rfl⟩ := (List.eq_nil_or_concat args).resolve_left hne
      rw [List.concat_eq_append] at hall ⊢
      have hexpr : IsExpression e := hall e (by simp)
      -- the last argument is such a command again, or the nest ends with it
      by_cases hmore : ∃ p', Bare e p' ∧ p'.rule = .command ∧ p'.parts.length ≠ 3
      · obtain ⟨p', hbare, hcommand, hparts⟩ := hmore
        have hlt' : sizeOf p' < k := by
          have hle := hbare.sizeOf_lt
          simp only [Phrase.mk.sizeOf_spec, List.cons.sizeOf_spec, List.concat_eq_append] at hlt
          have := List.sizeOf_lt_of_mem (show e ∈ front ++ [e] by simp)
          omega
        obtain ⟨h, hs, q, hnest, hq, hinner⟩ :=
          ih p' hlt' ⟨hcommand, hbare.formed hexpr.formed⟩ hparts
        exact ⟨_, _, q, .more hbare hnest, hq, hinner⟩
      · exact ⟨_, _, e, .one, hexpr, fun p' hbare hcommand =>
          Decidable.byContradiction fun hparts => hmore ⟨p', hbare, hcommand, hparts⟩⟩
    · exact absurd rfl hlength

/-! ### Calls that end with a block -/

/-- An expression that is a call and ends with the `do` block of this call. -/
inductive CallWith : Phrase Rule → Phrase Rule → Prop where
  | command {s : Span} {t : String} {e name args b : Phrase Rule} :
    Bare e ⟨.command, s, t, [name, args, b]⟩ → b.rule = .doBlock → CallWith e b
  | functionCall {s : Span} {t : String} {e name args b : Phrase Rule} :
    Bare e ⟨.functionCall, s, t, [name, args, b]⟩ → b.rule = .doBlock → CallWith e b
  | suffix {s₁ s₂ s₃ s₄ : Span} {t₁ t₂ t₃ t₄ : String} {first name b : Phrase Rule}
      {before : List (Phrase Rule)} {args : Option (Phrase Rule)} :
    (∀ p ∈ args, p.rule = .callArgs) → b.rule = .doBlock →
      CallWith ⟨.ternary, s₁, t₁, [⟨.binary, s₂, t₂, [⟨.chain, s₃, t₃, first ::
        (before ++ [⟨.suffix, s₄, t₄, name :: (args.toList ++ [b])⟩])⟩]⟩]⟩ b

theorem run_doBlock (hb : b.rule = .doBlock) (hrun : (env.node b).run st = (.ok n, st')) :
    ∃ s params body, n = ⟨s, .block params body false⟩ := by
  obtain ⟨r, s, t, parts⟩ := b
  obtain rfl : r = .doBlock := hb
  rcases parts with _ | ⟨⟨r', s', t', params⟩, _ | ⟨q, _ | ⟨q', ps⟩⟩⟩
  · cases hrun
  · obtain ⟨body, st₁, -, hpure⟩ := exists_of_run_bind hrun
    cases hpure
    exact ⟨_, _, _, rfl⟩
  · obtain ⟨body, st₁, -, hpure⟩ := exists_of_run_bind hrun
    cases hpure
    exact ⟨_, _, _, rfl⟩
  · cases hrun

/-- A suffix makes a call, and the ones behind it go on with the call. -/
theorem chain_cons (p : Phrase Rule) (ps : List (Phrase Rule)) (n : Node) :
    env.chain n (p :: ps) = env.chain n [p] >>= fun m => env.chain m ps := by
  obtain ⟨r, s, t, parts⟩ := p
  rcases parts with _ | ⟨⟨nr, ns, name, np⟩, _ | ⟨⟨r', s', t', args⟩, _ | ⟨b, _ | ⟨q, qs⟩⟩⟩⟩
  · rfl
  · simp [chain]
  -- the rule of the part behind the name tells arguments from a block
  · cases r' <;> simp [chain]
  · cases r' <;> simp [chain]
  · cases r' <;> rfl

theorem chain_append (ps qs : List (Phrase Rule)) (n : Node) :
    env.chain n (ps ++ qs) = env.chain n ps >>= fun m => env.chain m qs := by
  induction ps generalizing n with
  | nil => simp [chain]
  | cons p ps ih => rw [List.cons_append, chain_cons, chain_cons p ps, bind_assoc]; simp only [ih]

/-- The block of a call can be taken from it, and it is what was read last. -/
theorem CallWith.run (h : CallWith e b) (hrun : (env.node e).run st = (.ok n, st')) :
    ∃ w block st₁, takeDoBlock n = (w, some block) ∧ (env.node b).run st₁ = (.ok block, st') := by
  cases h with
  | @command s t e name args b hbare hb | @functionCall s t e name args b hbare hb =>
    rw [node_bare hbare] at hrun
    obtain ⟨r, ns, x, np⟩ := name
    obtain ⟨r', as, at', args⟩ := args
    obtain ⟨ms, st₁, -, hrest⟩ := exists_of_run_bind hrun
    obtain ⟨block, st₂, hblock, hpure⟩ := exists_of_run_bind hrest
    obtain ⟨bs, params, body, rfl⟩ := run_doBlock hb hblock
    cases hpure
    exact ⟨_, _, st₁, rfl, hblock⟩
  | @suffix s₁ s₂ s₃ s₄ t₁ t₂ t₃ t₄ first name b before args hargs hb =>
    rw [node_chain] at hrun
    -- the suffixes before the last one make its target
    obtain ⟨target, st₁, -, hchain⟩ := exists_of_run_bind hrun
    rw [chain_append] at hchain
    obtain ⟨m, st₂, -, hlast⟩ := exists_of_run_bind hchain
    obtain ⟨r, ns, x, np⟩ := name
    obtain ⟨r', bs, bt, bp⟩ := b
    obtain rfl : r' = .doBlock := hb
    cases args with
    | none =>
      obtain ⟨block, st₃, hblock, hpure⟩ := exists_of_run_bind hlast
      obtain ⟨bs, params, body, rfl⟩ := run_doBlock rfl hblock
      cases hpure
      exact ⟨_, _, st₂, rfl, hblock⟩
    | some args =>
      obtain ⟨r'', as, at', args⟩ := args
      obtain rfl : r'' = .callArgs := hargs _ rfl
      obtain ⟨ms, st₃, -, hrest⟩ := exists_of_run_bind hlast
      obtain ⟨block, st₄, hblock, hpure⟩ := exists_of_run_bind hrest
      obtain ⟨bs, params, body, rfl⟩ := run_doBlock rfl hblock
      cases hpure
      exact ⟨_, _, st₃, rfl, hblock⟩

/-! ### Expressions that keep their blocks -/

/-- A node is what an operator or a sign makes: a call that has no block. -/
def IsOperation (n : Node) : Prop :=
  ∃ s target name args, n = ⟨s, .call target name args none⟩

/-- An expression that is no call: an assignment, a choice, or a line with an operator or a
    sign. -/
inductive Composed : Phrase Rule → Prop where
  | assignment {s : Span} {t : String} {parts : List (Phrase Rule)} :
    Composed ⟨.assignment, s, t, parts⟩
  | choice {s : Span} {t : String} {test yes no : Phrase Rule} :
    Composed ⟨.ternary, s, t, [test, yes, no]⟩
  | line {s s' : Span} {t t' : String} {parts : List (Phrase Rule)} :
    AreLine parts → 2 ≤ parts.length → Composed ⟨.ternary, s, t, [⟨.binary, s', t', parts⟩]⟩

/-- The parts of an operand make a value, which is a call if there is a sign. -/
theorem run_operand {ps more : List (Phrase Rule)} {os : List Operand} (hp : AreOperand ps)
    (hrun : (env.operands (ps ++ more)).run st = (.ok os, st')) (place : Span → Span → Span) :
    ∃ v rest st₁, (env.operands more).run st₁ = (.ok rest, st') ∧
      Operand.applySigns place os = .value v :: Operand.applySigns place rest ∧
      (2 ≤ ps.length → IsOperation v) := by
  induction hp generalizing os st with
  | @value p hp =>
    obtain ⟨r, s, t, parts⟩ := p
    obtain ⟨rfl, -⟩ := hp
    obtain ⟨v, st₁, -, hrest⟩ := exists_of_run_bind hrun
    obtain ⟨rest, st₂, hrest, hpure⟩ := exists_of_run_bind hrest
    cases hpure
    exact ⟨v, rest, st₁, hrest, rfl, by simp⟩
  | @sign p ps hp _ ih =>
    have hsign : ∃ name sp os' st₁, os = .sign name sp :: os' ∧
        (env.operands (ps ++ more)).run st₁ = (.ok os', st') := by
      obtain ⟨r, s, t, parts⟩ := p
      obtain ⟨rfl, -⟩ | ⟨rfl, -⟩ := hp <;>
      · obtain ⟨os', st₁, hos', hpure⟩ := exists_of_run_bind hrun
        cases hpure
        exact ⟨_, _, os', st, rfl, hos'⟩
    obtain ⟨name, sp, os', st₁, rfl, hos'⟩ := hsign
    obtain ⟨v, rest, st₂, hrest, happly, -⟩ := ih hos'
    refine ⟨⟨place sp v.span, .call v name [] none⟩, rest, st₂, hrest, ?_,
      fun _ => ⟨_, v, _, _, rfl⟩⟩
    rw [Operand.applySigns, happly]

/-- The parts of a line make a value and operators with values behind them. -/
theorem run_line {ps : List (Phrase Rule)} {os : List Operand} (hp : AreLine ps)
    (hrun : (env.operands ps).run st = (.ok os, st')) (place : Span → Span → Span) :
    ∃ v rest, Operand.applySigns place os = .value v :: rest ∧
      (2 ≤ ps.length → IsOperation v ∨ Operand.pairs rest ≠ []) := by
  induction hp generalizing os st with
  | @one ps hp =>
    rw [← List.append_nil ps] at hrun
    obtain ⟨v, rest, -, -, happly, hcall⟩ := run_operand hp hrun place
    exact ⟨v, _, happly, fun hlength => .inl (hcall hlength)⟩
  | @more o ps qs hp ho _ ih =>
    obtain ⟨v, rest, st₁, hrest, happly, -⟩ := run_operand hp hrun place
    obtain ⟨r, s, t, parts⟩ := o
    obtain ⟨rfl, -⟩ := ho
    obtain ⟨os', st₂, hos', hpure⟩ := exists_of_run_bind hrest
    cases hpure
    -- what is behind the operator makes a value too, so that the operator is one of the pairs
    obtain ⟨w, rest', hline, -⟩ := ih hos'
    refine ⟨v, _, happly, fun _ => .inr ?_⟩
    rw [Operand.applySigns, hline]
    · simp [Operand.pairs]
    · simp

/-- What an open operator is closed with is its operation. -/
theorem isOperation_reduce (place : Span → Span → Span) {pending : List (Node × String)} (n : Node)
    (h : pending ≠ []) : IsOperation (Operand.reduce place 0 pending n).2 := by
  induction pending generalizing n with
  | nil => exact absurd rfl h
  | cons p pending ih =>
    rw [Operand.reduce, if_pos (Nat.zero_le _)]
    cases pending with
    | nil => exact ⟨_, _, _, _, rfl⟩
    | cons p' pending => exact ih _ (List.cons_ne_nil _ _)

theorem isOperation_group (place : Span → Span → Span) {pending : List (Node × String)}
    {xs : List (String × Node)} (n : Node) (h : pending ≠ [] ∨ xs ≠ []) :
    IsOperation (Operand.group place pending n xs) := by
  induction xs generalizing pending n with
  | nil => exact isOperation_reduce place n (h.resolve_right fun hne => hne rfl)
  | cons x xs ih =>
    rw [Operand.group]
    exact ih _ (.inl (List.cons_ne_nil _ _))

/-- A line with an operator or a sign is an operation. -/
theorem run_binary {s : Span} {t : String} {ps : List (Phrase Rule)} (hp : AreLine ps)
    (hlength : 2 ≤ ps.length) (hrun : (env.node ⟨.binary, s, t, ps⟩).run st = (.ok n, st')) :
    IsOperation n := by
  obtain ⟨os, st₁, hos, htree⟩ := exists_of_run_bind hrun
  obtain ⟨v, rest, happly, hcall⟩ := run_line hp hos env.cover
  rw [Operand.tree, happly] at htree
  cases htree
  cases hrest : Operand.pairs rest with
  | nil => exact (hcall hlength).resolve_right fun hne => hne hrest
  | cons x xs => exact isOperation_group _ _ (.inr (List.cons_ne_nil _ _))

/-- Nothing is taken from an expression that is no call, even if a call at its end has a block. -/
theorem Composed.run (h : Composed e) (hrun : (env.node e).run st = (.ok n, st')) :
    takeDoBlock n = (n, none) := by
  cases h with
  | @assignment s t parts =>
    rcases parts with _ | ⟨⟨r, ts, name, ps⟩, _ | ⟨value, _ | ⟨q, qs⟩⟩⟩
    · cases hrun
    · cases r <;> cases hrun
    · cases r <;>
      · obtain ⟨v, st₁, -, hpure⟩ := exists_of_run_bind hrun
        cases hpure
        rfl
    · cases r <;> cases hrun
  | choice =>
    obtain ⟨test, st₁, -, hrest⟩ := exists_of_run_bind hrun
    obtain ⟨yes, st₂, -, hrest⟩ := exists_of_run_bind hrest
    obtain ⟨no, st₃, -, hpure⟩ := exists_of_run_bind hrest
    cases hpure
    rfl
  | @line s s' t t' parts hline hlength =>
    have hbinary : (env.node ⟨.binary, s', t', parts⟩).run st = (.ok n, st') := hrun
    obtain ⟨s, target, name, args, rfl⟩ := run_binary hline hlength hbinary
    rfl

/-! ### Where the block goes -/

/-- The `do` block of a call that ends nested commands goes to the outermost command.  No command
    inside has it, nor the call itself; all other arguments are as they are read. -/
theorem Nest.trailing_block (hn : Nest p h hs q) (hq : CallWith q b)
    (hrun : (env.node p).run st = (.ok n, st')) :
    ∃ c cs m w block st₁ st₂, (env.heads h hs).run st = (.ok (c, cs), st₁) ∧
      (env.node q).run st₁ = (.ok m, st') ∧ (env.node b).run st₂ = (.ok block, st') ∧
      takeDoBlock m = (w, some block) ∧ takeDoBlock w = (w, none) ∧
      n = ⟨c.span, .invoke c.name (c.args ++ [wrap cs w]) (some block)⟩ := by
  obtain ⟨c, cs, m, st₁, hheads, hm, rfl⟩ := hn.run hrun
  obtain ⟨w, block, st₂, htake, hblock⟩ := hq.run hm
  have hnone := takeDoBlock_again m
  rw [htake] at hnone
  exact ⟨c, cs, m, w, block, st₁, st₂, hheads, hm, hblock, htake, hnone, by rw [htake]⟩

/-- Two commands and a call with an empty block. -/
theorem Nest.trailing_block_two :
    let expression (p : Phrase Rule) : Phrase Rule :=
      ⟨.ternary, ⟨0, 0⟩, "", [⟨.binary, ⟨0, 0⟩, "", [⟨.chain, ⟨0, 0⟩, "", [p]⟩]⟩]⟩
    let block : Phrase Rule := ⟨.doBlock, ⟨8, 14⟩, "", [⟨.body, ⟨11, 11⟩, "", []⟩]⟩
    let call : Phrase Rule := ⟨.functionCall, ⟨4, 14⟩, "",
      [⟨.functionName, ⟨4, 5⟩, "c", []⟩, ⟨.callArgs, ⟨5, 7⟩, "", []⟩, block]⟩
    let inner : Phrase Rule := ⟨.command, ⟨2, 14⟩, "",
      [⟨.name, ⟨2, 3⟩, "b", []⟩, ⟨.commandArgs, ⟨4, 14⟩, "", [expression call]⟩]⟩
    let outer : Phrase Rule := ⟨.command, ⟨0, 14⟩, "",
      [⟨.name, ⟨0, 1⟩, "a", []⟩, ⟨.commandArgs, ⟨2, 14⟩, "", [expression inner]⟩]⟩
    ∃ (c : Head Node) (cs : List (Head Node)) (w block : Node),
      (node { source := "t" } outer).run [] =
        (.ok ⟨c.span, .invoke c.name (c.args ++ [wrap cs w]) (some block)⟩, []) := by
  intro expression block call inner outer
  have hinner : Nest inner ⟨⟨2, 14⟩, "b", []⟩ [] (expression call) :=
    @Nest.one _ _ _ _ ⟨.name, ⟨2, 3⟩, "b", []⟩ _ []
  have hnest : Nest outer ⟨⟨0, 14⟩, "a", []⟩ [⟨⟨2, 14⟩, "b", []⟩] (expression call) :=
    @Nest.more _ _ _ _ ⟨.name, ⟨0, 1⟩, "a", []⟩ _ _ _ [] _ _ .mk hinner
  have hcall : CallWith (expression call) block := .functionCall .mk rfl
  obtain ⟨n, hrun⟩ : ∃ n, (node { source := "t" } outer).run [] = (.ok n, []) := ⟨_, rfl⟩
  obtain ⟨c, cs, m, w, block, st₁, st₂, -, -, -, -, -, rfl⟩ := hnest.trailing_block hcall hrun
  exact ⟨c, cs, w, block, hrun⟩

/-- Parentheses around the whole innermost argument do not hold the block of the call in them. -/
theorem Nest.opened_block {s s' : Span} {t t' : String} (hn : Nest p h hs q)
    (hq : Bare q ⟨.parenthesized, s, t, [⟨.body, s', t', [e]⟩]⟩) (he : CallWith e b)
    (hrun : (env.node p).run st = (.ok n, st')) :
    ∃ c cs m w block st₁, (env.heads h hs).run st = (.ok (c, cs), st₁) ∧
      (env.node e).run st₁ = (.ok m, st') ∧ takeDoBlock m = (w, some block) ∧
      n = ⟨c.span, .invoke c.name (c.args ++ [wrap cs w]) (some block)⟩ := by
  obtain ⟨c, cs, m, st₁, hheads, hm, rfl⟩ := hn.run hrun
  rw [node_bare hq, node_parenthesized] at hm
  obtain ⟨w, block, -, htake, -⟩ := he.run hm
  exact ⟨c, cs, m, w, block, st₁, hheads, hm, htake, by rw [htake]⟩

/-- Behind an operator, a sign, an assignment or a choice a block stays where it is. -/
theorem Nest.kept_block (hn : Nest p h hs q) (hq : Composed q)
    (hrun : (env.node p).run st = (.ok n, st')) :
    ∃ c cs m st₁, (env.heads h hs).run st = (.ok (c, cs), st₁) ∧
      (env.node q).run st₁ = (.ok m, st') ∧
      n = ⟨c.span, .invoke c.name (c.args ++ [wrap cs m]) none⟩ := by
  obtain ⟨c, cs, m, st₁, hheads, hm, rfl⟩ := hn.run hrun
  exact ⟨c, cs, m, st₁, hheads, hm, by rw [hq.run hm]⟩

end Reading

end Quasiquote
