import Quasiquote.Grammar.Language
import Quasiquote.Proofs.Grammar.Leaves

namespace Quasiquote

/-!
# Shapes of phrases

What the grammar says about the parts of each phrase, without the texts that it is read from.

* `Is`, `IsExpression`, `IsAnyBlock` — phrases that the grammar leaves for a rule, for an
  expression, and for either kind of block;
* `shape_command`, `shape_suffix`, … — the parts of each phrase in order;
* `AreOperand`, `AreLine` — the parts of a line of operators.
-/

open Grammar

namespace Rule

/-- Whether a rule leaves exactly one phrase. -/
def leavesOne (r : Rule) : Bool := r.mode == .phrase || r.mode == .token || r.mode == .tight

end Rule

/-- A phrase of a rule, as the grammar leaves it. -/
def Is (r : Rule) (p : Phrase Rule) : Prop := p.rule = r ∧ language.Formed p

/-- A phrase of an expression. -/
def IsExpression (p : Phrase Rule) : Prop := Is .assignment p ∨ Is .ternary p

/-- A phrase of a block of either kind. -/
def IsAnyBlock (p : Phrase Rule) : Prop := Is .braceBlock p ∨ Is .doBlock p

variable {r : Rule} {p : Phrase Rule} {xs parts : List (Phrase Rule)} {s : Span} {t : String}
  {e : Peg Rule}

theorem Is.formed (h : Is r p) : language.Formed p := h.2

theorem IsExpression.formed (h : IsExpression p) : language.Formed p := h.elim Is.formed Is.formed

theorem IsAnyBlock.formed (h : IsAnyBlock p) : language.Formed p := h.elim Is.formed Is.formed

theorem leaves_one (hr : r.leavesOne = true) (h : language.Leaves (.rule r) xs) :
    ∃ p, xs = [p] ∧ Is r p := by
  have hmode : language.mode r = .token ∨ language.mode r = .phrase ∨ language.mode r = .tight := by
    change r.mode = .token ∨ r.mode = .phrase ∨ r.mode = .tight
    cases h : r.mode <;> simp [Rule.leavesOne, h] at hr ⊢
  rcases hmode with hmode | hmode
  · obtain ⟨s, text, rfl⟩ := (leaves_token hmode).1 h
    exact ⟨_, rfl, rfl, (formed_token hmode s text).2 rfl⟩
  · obtain ⟨s, parts, rfl, hformed⟩ := (leaves_phrase hmode).1 h
    exact ⟨_, rfl, rfl, hformed⟩

/-- One of several rules that leave one phrase each leaves one phrase. -/
theorem leaves_alts (rs : List Rule) (hne : rs ≠ []) (hr : ∀ r ∈ rs, r.leavesOne = true)
    (h : language.Leaves (Peg.alts (rs.map Rule.ref)) xs) : ∃ r ∈ rs, ∃ p, xs = [p] ∧ Is r p := by
  induction rs with
  | nil => exact absurd rfl hne
  | cons r rs ih =>
    obtain ⟨hfirst, hrest⟩ := List.forall_mem_cons.1 hr
    cases rs with
    | nil => exact ⟨r, List.mem_cons_self, leaves_one hfirst h⟩
    | cons r' rs =>
      rcases leaves_alt.1 h with h | h
      · exact ⟨r, List.mem_cons_self, leaves_one hfirst h⟩
      · obtain ⟨r'', hmem, hp⟩ := ih (List.cons_ne_nil _ _) hrest h
        exact ⟨r'', List.mem_cons_of_mem _ hmem, hp⟩

/-! ### Rules that leave the phrases of their parts -/

/-- Texts leave nothing. -/
theorem leaves_texts (ws : List String) (h : language.Leaves (Peg.alts (ws.map Peg.lit)) xs) :
    xs = [] := by
  induction ws with
  | nil => exact leaves_refuse.1 h
  | cons w ws ih =>
    cases ws with
    | nil => exact (leaves_text _).1 h
    | cons w' ws =>
      rcases leaves_alt.1 h with h | h
      · exact (leaves_text _).1 h
      · exact ih h

/-- Repetitions of what leaves nothing leave nothing. -/
theorem leaves_many_nothing (he : ∀ xs, language.Leaves e xs → xs = [])
    (h : language.Leaves (.many e) xs) : xs = [] := by
  generalize hmany : Peg.many e = e' at h
  induction h with
  | manyNil => rfl
  | manyCons hfirst _ _ ih =>
    cases hmany
    rw [he _ hfirst, ih rfl, List.nil_append]
  | _ => cases hmany

theorem leaves_newline (h : language.Leaves Rule.newline xs) : xs = [] :=
  leaves_texts ["\n", "\r\n", "\r"] h

@[simp] theorem leaves_newlines : language.Leaves (.rule .newlines) xs ↔ xs = [] := by
  rw [leaves_inline rfl]
  exact ⟨leaves_many_nothing fun _ => leaves_newline, fun h => h ▸ .manyNil _⟩

theorem leaves_separator (h : language.Leaves (.rule .separator) xs) : xs = [] := by
  rw [leaves_inline rfl] at h
  have hone (ys : List (Phrase Rule))
      (h : language.Leaves (Peg.alts [Rule.newline, Peg.lit ";"]) ys) : ys = [] := by
    rcases leaves_alt.1 h with h | h
    · exact leaves_newline h
    · exact (leaves_text _).1 h
  obtain ⟨ys, zs, hy, hz, rfl⟩ := leaves_seq.1 h
  rw [hone ys hy, leaves_many_nothing hone hz, List.nil_append]

theorem leaves_expr (h : language.Leaves (.rule .expr) xs) : ∃ p, xs = [p] ∧ IsExpression p := by
  rw [leaves_inline rfl] at h
  rcases leaves_alt.1 h with h | h <;> obtain ⟨p, rfl, hp⟩ := leaves_one rfl h
  · exact ⟨p, rfl, .inl hp⟩
  · exact ⟨p, rfl, .inr hp⟩

theorem leaves_anyBlock (h : language.Leaves (.rule .anyBlock) xs) :
    ∃ p, xs = [p] ∧ IsAnyBlock p := by
  rw [leaves_inline rfl] at h
  rcases leaves_alt.1 h with h | h <;> obtain ⟨p, rfl, hp⟩ := leaves_one rfl h
  · exact ⟨p, rfl, .inl hp⟩
  · exact ⟨p, rfl, .inr hp⟩

theorem leaves_primary (h : language.Leaves (.rule .primary) xs) :
    ∃ p, xs = [p] ∧ language.Formed p := by
  rw [leaves_inline rfl] at h
  obtain ⟨_, _, p, rfl, hp⟩ := leaves_alts [.float, .integer, .string, .kwTrue, .kwFalse,
    .kwNil, .kwSelf, .quoted, .ifExpr, .classDef, .methodDef, .hole, .parenthesized, .field,
    .functionCall, .command, .constant, .name] (by simp) (by decide) h
  exact ⟨p, rfl, hp.formed⟩

theorem leaves_opt_one {P : Phrase Rule → Prop}
    (he : ∀ xs, language.Leaves e xs → ∃ p, xs = [p] ∧ P p) (h : language.Leaves (.opt e) xs) :
    ∃ o : Option (Phrase Rule), xs = o.toList ∧ ∀ p ∈ o, P p := by
  rcases leaves_opt.1 h with rfl | h
  · exact ⟨none, rfl, by simp⟩
  · obtain ⟨p, rfl, hp⟩ := he xs h
    exact ⟨some p, rfl, by simpa using hp⟩

theorem leaves_opt_rule (hr : r.leavesOne = true) (h : language.Leaves (.opt (.rule r)) xs) :
    ∃ o : Option (Phrase Rule), xs = o.toList ∧ ∀ p ∈ o, Is r p :=
  leaves_opt_one (fun _ => leaves_one hr) h

theorem leaves_many_all {P : Phrase Rule → Prop}
    (he : ∀ xs, language.Leaves e xs → ∀ p ∈ xs, P p) (h : language.Leaves (.many e) xs) :
    ∀ p ∈ xs, P p := by
  generalize hmany : Peg.many e = e' at h
  induction h with
  | manyNil => simp
  | manyCons hfirst _ _ ih =>
    cases hmany
    exact List.forall_mem_append.2 ⟨he _ hfirst, ih rfl⟩
  | _ => cases hmany

/-- What follows a text leaves all there is. -/
theorem leaves_behind {cs : List Char} (h : language.Leaves (.seq (.text cs) e) xs) :
    language.Leaves e xs := by
  obtain ⟨ys, zs, hy, hz, rfl⟩ := leaves_seq.1 h
  rwa [(leaves_text cs).1 hy, List.nil_append]

/-! ### The parts of each phrase -/

/-- The parts of a phrase are left by the expression of its rule. -/
theorem expression_leaves (h : language.Formed ⟨r, s, t, parts⟩)
    (hr : r.mode = .phrase ∨ r.mode = .tight) : language.Leaves r.expression parts :=
  (formed_phrase hr s t).1 h

/-- A token has no parts. -/
theorem parts_of_token (h : language.Formed ⟨r, s, t, parts⟩) (hr : r.mode = .token) : parts = [] :=
  (formed_token hr s t).1 h

theorem shape_assignment (h : language.Formed ⟨.assignment, s, t, parts⟩) :
    ∃ target value, parts = [target, value] ∧ (Is .field target ∨ Is .name target) ∧
      IsExpression value := by
  have h := expression_leaves h (.inl rfl)
  simp only [Rule.expression, Peg.seqs, Peg.alts, Peg.lit, leaves_seq, leaves_alt, leaves_text,
    leaves_refuse, leaves_newlines] at h
  obtain ⟨_, _, ht, ⟨_, _, rfl, ⟨_, _, rfl, ⟨_, _, rfl, hv, rfl⟩, rfl⟩, rfl⟩, rfl⟩ := h
  obtain ⟨value, rfl, hvalue⟩ := leaves_expr hv
  rcases ht with ht | ht <;> obtain ⟨target, rfl, htarget⟩ := leaves_one rfl ht
  · exact ⟨target, value, rfl, .inl htarget, hvalue⟩
  · exact ⟨target, value, rfl, .inr htarget, hvalue⟩

theorem shape_ternary (h : language.Formed ⟨.ternary, s, t, parts⟩) :
    ∃ test, Is .binary test ∧ (parts = [test] ∨
      ∃ yes no, parts = [test, yes, no] ∧ IsExpression yes ∧ IsExpression no) := by
  have h := expression_leaves h (.inl rfl)
  simp only [Rule.expression, Peg.seqs, Peg.lit, leaves_seq, leaves_opt, leaves_text,
    leaves_newlines] at h
  obtain ⟨_, _, ht, hrest, rfl⟩ := h
  obtain ⟨test, rfl, htest⟩ := leaves_one rfl ht
  refine ⟨test, htest, ?_⟩
  obtain rfl | hrest := hrest
  · exact .inl rfl
  · obtain ⟨_, _, rfl, ⟨_, _, rfl, ⟨_, _, hy, ⟨_, _, rfl, ⟨_, _, rfl, ⟨_, _, rfl, hn, rfl⟩, rfl⟩,
      rfl⟩, rfl⟩, rfl⟩, rfl⟩ := hrest
    obtain ⟨yes, rfl, hyes⟩ := leaves_expr hy
    obtain ⟨no, rfl, hno⟩ := leaves_expr hn
    exact .inr ⟨yes, no, rfl, hyes, hno⟩

/-- The phrases of one operand: signs and a chain. -/
inductive AreOperand : List (Phrase Rule) → Prop where
  | value {p : Phrase Rule} : Is .chain p → AreOperand [p]
  | sign {p : Phrase Rule} {ps : List (Phrase Rule)} :
    Is .notOp p ∨ Is .negOp p → AreOperand ps → AreOperand (p :: ps)

/-- The phrases of a line of operators: operands with an operator between each two of them. -/
inductive AreLine : List (Phrase Rule) → Prop where
  | one {ps : List (Phrase Rule)} : AreOperand ps → AreLine ps
  | more {o : Phrase Rule} {ps qs : List (Phrase Rule)} :
    AreOperand ps → Is .infixOp o → AreLine qs → AreLine (ps ++ o :: qs)

theorem leaves_operand (h : language.Leaves (.rule .operand) xs) : AreOperand xs := by
  rw [leaves_inline rfl] at h
  obtain ⟨ys, zs, hsigns, hchain, rfl⟩ := leaves_seq.1 h
  obtain ⟨p, rfl, hp⟩ := leaves_one rfl hchain
  have hall : ∀ q ∈ ys, Is .notOp q ∨ Is .negOp q := by
    refine leaves_many_all (fun ys hy q hq => ?_) hsigns
    rw [leaves_inline rfl] at hy
    rcases leaves_alt.1 hy with hy | hy <;> obtain ⟨q', rfl, hq'⟩ := leaves_one rfl hy <;>
      cases List.mem_singleton.1 hq
    · exact .inl hq'
    · exact .inr hq'
  clear hsigns h
  induction ys with
  | nil => exact .value hp
  | cons q ys ih =>
    obtain ⟨hq, hys⟩ := List.forall_mem_cons.1 hall
    exact .sign hq (ih hys)

theorem areLine_append {ps qs : List (Phrase Rule)} (hp : AreOperand ps)
    (h : language.Leaves (.many (Peg.seqs [.rule .infixOp, .rule .newlines, .rule .operand])) qs) :
    AreLine (ps ++ qs) := by
  generalize hmany : Peg.many _ = e at h
  induction h generalizing ps with
  | manyNil => exact (List.append_nil ps).symm ▸ .one hp
  | manyCons hfirst _ _ ih =>
    cases hmany
    simp only [Peg.seqs, leaves_seq, leaves_newlines] at hfirst
    obtain ⟨_, _, ho, ⟨_, qs', rfl, hq, rfl⟩, rfl⟩ := hfirst
    obtain ⟨o, rfl, hinfix⟩ := leaves_one rfl ho
    exact .more hp hinfix (ih (leaves_operand hq) rfl)
  | _ => cases hmany

theorem shape_binary (h : language.Formed ⟨.binary, s, t, parts⟩) : AreLine parts := by
  obtain ⟨ys, zs, hy, hz, rfl⟩ := leaves_seq.1 (expression_leaves h (.inl rfl))
  exact areLine_append (leaves_operand hy) hz

theorem shape_chain (h : language.Formed ⟨.chain, s, t, parts⟩) :
    ∃ first suffixes, parts = first :: suffixes ∧ language.Formed first ∧
      ∀ p ∈ suffixes, Is .suffix p := by
  obtain ⟨ys, zs, hy, hz, rfl⟩ := leaves_seq.1 (expression_leaves h (.inl rfl))
  obtain ⟨first, rfl, hfirst⟩ := leaves_primary hy
  refine ⟨first, zs, rfl, hfirst, leaves_many_all (fun ys hy p hp => ?_) hz⟩
  obtain ⟨q, rfl, hq⟩ := leaves_one rfl hy
  cases List.mem_singleton.1 hp
  exact hq

theorem shape_suffix (h : language.Formed ⟨.suffix, s, t, parts⟩) :
    ∃ (name : Phrase Rule) (args block : Option (Phrase Rule)),
      parts = name :: (args.toList ++ block.toList) ∧ Is .methodName name ∧
        (∀ p ∈ args, Is .callArgs p) ∧ ∀ p ∈ block, IsAnyBlock p := by
  have h := expression_leaves h (.inl rfl)
  simp only [Rule.expression, Peg.seqs, Peg.lit, leaves_seq, leaves_text, leaves_newlines] at h
  obtain ⟨_, _, rfl, ⟨_, _, rfl, ⟨_, _, hn, ⟨_, _, ha, hb, rfl⟩, rfl⟩, rfl⟩, rfl⟩ := h
  obtain ⟨name, rfl, hname⟩ := leaves_one rfl hn
  obtain ⟨args, rfl, hargs⟩ := leaves_opt_rule rfl ha
  obtain ⟨block, rfl, hblock⟩ := leaves_opt_one (fun _ => leaves_anyBlock) hb
  exact ⟨name, args, block, rfl, hname, hargs, hblock⟩

theorem shape_functionCall (h : language.Formed ⟨.functionCall, s, t, parts⟩) :
    ∃ (name args : Phrase Rule) (block : Option (Phrase Rule)),
      parts = name :: args :: block.toList ∧ Is .functionName name ∧ Is .callArgs args ∧
        ∀ p ∈ block, IsAnyBlock p := by
  have h := expression_leaves h (.inl rfl)
  simp only [Rule.expression, Peg.seqs, leaves_seq] at h
  obtain ⟨_, _, hn, ⟨_, _, ha, hb, rfl⟩, rfl⟩ := h
  obtain ⟨name, rfl, hname⟩ := leaves_one rfl hn
  obtain ⟨args, rfl, hargs⟩ := leaves_one rfl ha
  obtain ⟨block, rfl, hblock⟩ := leaves_opt_one (fun _ => leaves_anyBlock) hb
  exact ⟨name, args, block, rfl, hname, hargs, hblock⟩

theorem shape_command (h : language.Formed ⟨.command, s, t, parts⟩) :
    ∃ (name args : Phrase Rule) (block : Option (Phrase Rule)),
      parts = name :: args :: block.toList ∧ Is .name name ∧ Is .commandArgs args ∧
        ∀ p ∈ block, Is .doBlock p := by
  have h := expression_leaves h (.inl rfl)
  simp only [Rule.expression, Peg.seqs, leaves_seq, leaves_refuse] at h
  obtain ⟨_, _, hn, ⟨_, _, rfl, ⟨_, _, ha, hb, rfl⟩, rfl⟩, rfl⟩ := h
  obtain ⟨name, rfl, hname⟩ := leaves_one rfl hn
  obtain ⟨args, rfl, hargs⟩ := leaves_one rfl ha
  obtain ⟨block, rfl, hblock⟩ := leaves_opt_rule rfl hb
  exact ⟨name, args, block, rfl, hname, hargs, hblock⟩

theorem shape_commandArgs (h : language.Formed ⟨.commandArgs, s, t, parts⟩) :
    parts ≠ [] ∧ ∀ p ∈ parts, IsExpression p := by
  have h := expression_leaves h (.inl rfl)
  obtain ⟨_, zs, hy, hz, rfl⟩ := leaves_seq.1 h
  obtain ⟨first, rfl, hfirst⟩ := leaves_expr hy
  refine ⟨List.cons_ne_nil _ _, List.forall_mem_cons.2 ⟨hfirst, ?_⟩⟩
  refine leaves_many_all (fun ys hy p hp => ?_) hz
  simp only [Peg.seqs, Peg.lit, leaves_seq, leaves_text, leaves_newlines] at hy
  obtain ⟨_, _, rfl, ⟨_, _, rfl, he, rfl⟩, rfl⟩ := hy
  obtain ⟨q, rfl, hq⟩ := leaves_expr he
  cases List.mem_singleton.1 hp
  exact hq

theorem shape_blockArg (h : language.Formed ⟨.blockArg, s, t, parts⟩) :
    ∃ (name : Phrase Rule) (default : Option (Phrase Rule)), parts = name :: default.toList ∧
      Is .name name ∧ ∀ p ∈ default, Is .kwNil p := by
  have h := leaves_behind (expression_leaves h (.inl rfl))
  obtain ⟨_, _, hn, hd, rfl⟩ := leaves_seq.1 h
  obtain ⟨name, rfl, hname⟩ := leaves_one rfl hn
  obtain ⟨default, rfl, hdefault⟩ :=
    leaves_opt_one (fun _ hx => leaves_one rfl (leaves_behind hx)) hd
  exact ⟨name, default, rfl, hname, hdefault⟩

theorem shape_braceBlock (h : language.Formed ⟨.braceBlock, s, t, parts⟩) :
    ∃ (params : Option (Phrase Rule)) (body : Phrase Rule), parts = params.toList ++ [body] ∧
      (∀ p ∈ params, Is .blockParams p) ∧ Is .body body := by
  have h := leaves_behind (expression_leaves h (.inl rfl))
  simp only [Peg.seqs, leaves_seq] at h
  obtain ⟨_, _, hp, ⟨_, _, hb, hc, rfl⟩, rfl⟩ := h
  obtain ⟨params, rfl, hparams⟩ := leaves_opt_rule rfl hp
  obtain ⟨body, rfl, hbody⟩ := leaves_one rfl hb
  obtain rfl := (leaves_text _).1 hc
  exact ⟨params, body, rfl, hparams, hbody⟩

theorem shape_doBlock (h : language.Formed ⟨.doBlock, s, t, parts⟩) :
    ∃ (params : Option (Phrase Rule)) (body : Phrase Rule), parts = params.toList ++ [body] ∧
      (∀ p ∈ params, Is .blockParams p) ∧ Is .body body := by
  have h := expression_leaves h (.inl rfl)
  simp only [Rule.expression, Peg.seqs, leaves_seq] at h
  obtain ⟨_, _, hk, ⟨_, _, hp, ⟨_, _, hb, he, rfl⟩, rfl⟩, rfl⟩ := h
  obtain rfl := (leaves_keyword rfl).1 hk
  obtain ⟨params, rfl, hparams⟩ := leaves_opt_rule rfl hp
  obtain ⟨body, rfl, hbody⟩ := leaves_one rfl hb
  obtain rfl := (leaves_keyword rfl).1 he
  exact ⟨params, body, rfl, hparams, hbody⟩

theorem shape_blockParams (h : language.Formed ⟨.blockParams, s, t, parts⟩) :
    ∀ p ∈ parts, Is .name p := by
  have h := leaves_behind (expression_leaves h (.inl rfl))
  obtain ⟨_, _, hn, hl, rfl⟩ := leaves_seq.1 h
  obtain rfl := (leaves_text _).1 hl
  rw [List.append_nil]
  rcases leaves_opt.1 hn with rfl | hn
  · simp
  obtain ⟨_, _, hf, hm, rfl⟩ := leaves_seq.1 hn
  obtain ⟨first, rfl, hfirst⟩ := leaves_one rfl hf
  refine List.forall_mem_cons.2 ⟨hfirst, leaves_many_all (fun ys hy p hp => ?_) hm⟩
  obtain ⟨q, rfl, hq⟩ := leaves_one rfl (leaves_behind hy)
  cases List.mem_singleton.1 hp
  exact hq

theorem shape_program (h : language.Formed ⟨.program, s, t, parts⟩) :
    ∃ body, parts = [body] ∧ Is .body body := by
  obtain ⟨_, _, hb, he, rfl⟩ := leaves_seq.1 (leaves_behind (expression_leaves h (.inl rfl)))
  obtain ⟨body, rfl, hbody⟩ := leaves_one rfl hb
  obtain rfl := (leaves_keyword rfl).1 he
  exact ⟨body, rfl, hbody⟩

theorem shape_parenthesized (h : language.Formed ⟨.parenthesized, s, t, parts⟩) :
    ∃ body, parts = [body] ∧ Is .body body := by
  obtain ⟨_, _, hb, hc, rfl⟩ := leaves_seq.1 (leaves_behind (expression_leaves h (.inl rfl)))
  obtain ⟨body, rfl, hbody⟩ := leaves_one rfl hb
  obtain rfl := (leaves_text _).1 hc
  exact ⟨body, rfl, hbody⟩

theorem shape_quoted (h : language.Formed ⟨.quoted, s, t, parts⟩) :
    ∃ block, parts = [block] ∧ IsAnyBlock block := by
  obtain ⟨_, _, hk, hb, rfl⟩ := leaves_seq.1 (expression_leaves h (.inl rfl))
  obtain rfl := (leaves_keyword rfl).1 hk
  exact leaves_anyBlock hb

theorem shape_hole (h : language.Formed ⟨.hole, s, t, parts⟩) :
    ∃ inside, parts = [inside] ∧ (Is .holeRef inside ∨ IsExpression inside) := by
  obtain ⟨_, _, hi, hc, rfl⟩ := leaves_seq.1 (leaves_behind (expression_leaves h (.inl rfl)))
  obtain rfl := (leaves_text _).1 hc
  rw [List.append_nil]
  rcases leaves_alt.1 hi with hi | hi
  · obtain ⟨p, rfl, hp⟩ := leaves_one rfl hi
    exact ⟨p, rfl, .inl hp⟩
  · obtain ⟨p, rfl, hp⟩ := leaves_expr hi
    exact ⟨p, rfl, .inr hp⟩

theorem shape_holeRef (h : language.Formed ⟨.holeRef, s, t, parts⟩) :
    ∃ digits, parts = [digits] ∧ Is .holeIndex digits :=
  leaves_one rfl (leaves_behind (expression_leaves h (.inr rfl)))

theorem shape_string (h : language.Formed ⟨.string, s, t, parts⟩) :
    ∃ inside, parts = [inside] ∧ Is .stringInner inside := by
  obtain ⟨_, _, hi, hq, rfl⟩ := leaves_seq.1 (leaves_behind (expression_leaves h (.inr rfl)))
  obtain rfl := (leaves_text _).1 hq
  rw [List.append_nil]
  exact leaves_one rfl hi

/-! ### Conditionals and definitions -/

/-- What is between a test and its body leaves nothing. -/
theorem leaves_then (h : language.Leaves (Peg.alts [.rule .kwThen, .rule .separator]) xs) :
    xs = [] := by
  rcases leaves_alt.1 h with h | h
  · exact (leaves_keyword rfl).1 h
  · exact leaves_separator h

/-- The clauses of a conditional behind its first body. -/
inductive AreClauses : List (Phrase Rule) → Prop where
  | nil : AreClauses []
  | last {p : Phrase Rule} : Is .elseClause p → AreClauses [p]
  | cons {p : Phrase Rule} {ps : List (Phrase Rule)} :
    Is .elsifClause p → AreClauses ps → AreClauses (p :: ps)

theorem shape_ifExpr (h : language.Formed ⟨.ifExpr, s, t, parts⟩) :
    ∃ test body clauses, parts = test :: body :: clauses ∧ IsExpression test ∧ Is .body body ∧
      AreClauses clauses := by
  have h := expression_leaves h (.inl rfl)
  simp only [Rule.expression, Peg.seqs, leaves_seq] at h
  obtain ⟨_, _, hk, ⟨_, _, ht, ⟨_, _, hs, ⟨_, _, hb, ⟨clauses, _, hm, ⟨_, _, he, hend, rfl⟩, rfl⟩,
    rfl⟩, rfl⟩, rfl⟩, rfl⟩ := h
  obtain rfl := (leaves_keyword rfl).1 hk
  obtain ⟨test, rfl, htest⟩ := leaves_expr ht
  obtain rfl := leaves_then hs
  obtain ⟨body, rfl, hbody⟩ := leaves_one rfl hb
  obtain rfl := (leaves_keyword rfl).1 hend
  obtain ⟨last, rfl, hlast⟩ := leaves_opt_rule rfl he
  refine ⟨test, body, clauses ++ last.toList, by simp, htest, hbody, ?_⟩
  have hall : ∀ p ∈ clauses, Is .elsifClause p := by
    refine leaves_many_all (fun ys hy p hp => ?_) hm
    obtain ⟨q, rfl, hq⟩ := leaves_one rfl hy
    cases List.mem_singleton.1 hp
    exact hq
  clear hm h
  induction clauses with
  | nil =>
    cases last with
    | none => exact .nil
    | some p => exact .last (hlast p rfl)
  | cons p clauses ih =>
    obtain ⟨hp, hclauses⟩ := List.forall_mem_cons.1 hall
    exact .cons hp (ih hclauses)

theorem shape_elsifClause (h : language.Formed ⟨.elsifClause, s, t, parts⟩) :
    ∃ test body, parts = [test, body] ∧ IsExpression test ∧ Is .body body := by
  have h := expression_leaves h (.inl rfl)
  simp only [Rule.expression, Peg.seqs, leaves_seq] at h
  obtain ⟨_, _, hk, ⟨_, _, ht, ⟨_, _, hs, hb, rfl⟩, rfl⟩, rfl⟩ := h
  obtain rfl := (leaves_keyword rfl).1 hk
  obtain ⟨test, rfl, htest⟩ := leaves_expr ht
  obtain rfl := leaves_then hs
  obtain ⟨body, rfl, hbody⟩ := leaves_one rfl hb
  exact ⟨test, body, rfl, htest, hbody⟩

theorem shape_elseClause (h : language.Formed ⟨.elseClause, s, t, parts⟩) :
    ∃ body, parts = [body] ∧ Is .body body := by
  obtain ⟨_, _, hk, hb, rfl⟩ := leaves_seq.1 (expression_leaves h (.inl rfl))
  obtain rfl := (leaves_keyword rfl).1 hk
  exact leaves_one rfl hb

theorem shape_classDef (h : language.Formed ⟨.classDef, s, t, parts⟩) :
    ∃ (name : Phrase Rule) (superclass : Option (Phrase Rule)) (body : Phrase Rule),
      parts = name :: (superclass.toList ++ [body]) ∧ Is .constant name ∧
        (∀ p ∈ superclass, Is .constant p) ∧ Is .body body := by
  have h := expression_leaves h (.inl rfl)
  simp only [Rule.expression, Peg.seqs, leaves_seq] at h
  obtain ⟨_, _, hk, ⟨_, _, hn, ⟨_, _, hs, ⟨_, _, hb, he, rfl⟩, rfl⟩, rfl⟩, rfl⟩ := h
  obtain rfl := (leaves_keyword rfl).1 hk
  obtain ⟨name, rfl, hname⟩ := leaves_one rfl hn
  obtain ⟨superclass, rfl, hsuperclass⟩ :=
    leaves_opt_one (fun _ hx => leaves_one rfl (leaves_behind hx)) hs
  obtain ⟨body, rfl, hbody⟩ := leaves_one rfl hb
  obtain rfl := (leaves_keyword rfl).1 he
  exact ⟨name, superclass, body, rfl, hname, hsuperclass, hbody⟩

theorem shape_methodDef (h : language.Formed ⟨.methodDef, s, t, parts⟩) :
    ∃ (name : Phrase Rule) (params returns : Option (Phrase Rule)) (body : Phrase Rule),
      parts = name :: (params.toList ++ (returns.toList ++ [body])) ∧ Is .methodName name ∧
        (∀ p ∈ params, Is .paramList p) ∧ (∀ p ∈ returns, Is .returnType p) ∧ Is .body body := by
  have h := expression_leaves h (.inl rfl)
  simp only [Rule.expression, Peg.seqs, leaves_seq] at h
  obtain ⟨_, _, hk, ⟨_, _, hn, ⟨_, _, hp, ⟨_, _, hr, ⟨_, _, hb, he, rfl⟩, rfl⟩, rfl⟩, rfl⟩, rfl⟩ :=
    h
  obtain rfl := (leaves_keyword rfl).1 hk
  obtain ⟨name, rfl, hname⟩ := leaves_one rfl hn
  obtain ⟨params, rfl, hparams⟩ := leaves_opt_rule rfl hp
  obtain ⟨returns, rfl, hreturns⟩ := leaves_opt_rule rfl hr
  obtain ⟨body, rfl, hbody⟩ := leaves_one rfl hb
  obtain rfl := (leaves_keyword rfl).1 he
  exact ⟨name, params, returns, body, rfl, hname, hparams, hreturns, hbody⟩

theorem shape_returnType (h : language.Formed ⟨.returnType, s, t, parts⟩) :
    ∃ type, parts = [type] ∧ Is .typeName type :=
  leaves_one rfl (leaves_behind (expression_leaves h (.inl rfl)))

theorem shape_paramList (h : language.Formed ⟨.paramList, s, t, parts⟩) :
    ∀ p ∈ parts, Is .param p := by
  have h := expression_leaves h (.inl rfl)
  simp only [Rule.expression, Rule.listed, Peg.seqs, Peg.lit, leaves_seq, leaves_text,
    leaves_newlines, leaves_opt] at h
  obtain ⟨_, _, rfl, ⟨_, _, rfl, ⟨_, _, hl, ⟨_, _, rfl, rfl, rfl⟩, rfl⟩, rfl⟩, rfl⟩ := h
  simp only [List.nil_append, List.append_nil]
  rcases hl with rfl | ⟨_, _, hf, hm, rfl⟩
  · simp
  obtain ⟨first, rfl, hfirst⟩ := leaves_one rfl hf
  refine List.forall_mem_cons.2 ⟨hfirst, leaves_many_all (fun ys hy p hp => ?_) hm⟩
  simp only [leaves_seq, leaves_text, leaves_newlines] at hy
  obtain ⟨_, _, rfl, ⟨_, _, rfl, ⟨_, _, rfl, hp', rfl⟩, rfl⟩, rfl⟩ := hy
  obtain ⟨q, rfl, hq⟩ := leaves_one rfl hp'
  cases List.mem_singleton.1 hp
  exact hq

theorem shape_blockMarker (h : language.Formed ⟨.blockMarker, s, t, parts⟩) : parts = [] :=
  (leaves_text _).1 (expression_leaves h (.inl rfl))

theorem shape_param (h : language.Formed ⟨.param, s, t, parts⟩) :
    ∃ (marker : Option (Phrase Rule)) (name : Phrase Rule) (type default : Option (Phrase Rule)),
      parts = marker.toList ++ name :: (type.toList ++ default.toList) ∧
        (∀ p ∈ marker, Is .blockMarker p) ∧ Is .name name ∧ (∀ p ∈ type, Is .typeName p) ∧
          ∀ p ∈ default, IsExpression p := by
  have h := expression_leaves h (.inl rfl)
  simp only [Rule.expression, Peg.seqs, leaves_seq] at h
  obtain ⟨_, _, hm, ⟨_, _, hn, ⟨_, _, ht, hd, rfl⟩, rfl⟩, rfl⟩ := h
  obtain ⟨marker, rfl, hmarker⟩ := leaves_opt_rule rfl hm
  obtain ⟨name, rfl, hname⟩ := leaves_one rfl hn
  obtain ⟨type, rfl, htype⟩ :=
    leaves_opt_one (fun _ hx => leaves_one rfl (leaves_behind hx)) ht
  obtain ⟨default, rfl, hdefault⟩ :=
    leaves_opt_one (fun _ hx => leaves_expr (leaves_behind hx)) hd
  exact ⟨marker, name, type, default, rfl, hmarker, hname, htype, hdefault⟩

end Quasiquote
