import Quasiquote.Proofs.Program.Levels

namespace Quasiquote

/-!
# Bodies and parentheses

The statements of a body stand behind each other with separators between them, and
perhaps one before the first and one behind the last.  In parentheses a body is a simple
expression, and so is an operator between two operands.

* `IsSep` — separators, `Items` — the statements behind the first one;
* `Closes` — what may come behind the statements of a body;
* `reads_body`, `reads_body_nil` — bodies;
* `IsSimple.parens`, `IsOperand.between` — parentheses;
* `parse_statements` — a text of statements is the program of them.
-/

open Peg (lit seqs alts)

/-- What ends a statement. -/
def breakMark : Peg Rule := alts [Rule.newline, lit ";"]

/-- A separator: a newline or a semicolon, and spaces. -/
def IsSep (u : List Char) : Prop :=
  ∃ c k, u = c :: List.replicate k ' ' ∧ (c = '\n' ∨ c = ';')

variable {env : Reading} {s : Reading.Supply env} {u v pre post mark rest : List Char}
  {n : Node} {ns : List Node} {is js : List Nat} {sp : Span}

theorem HasHead.noBreak (h : HasHead u) : Fails breakMark u := by
  have hline : Fails Rule.newline u :=
    .alt (h.fails_text (by decide)) (.alt (h.fails_text (by decide)) (h.fails_text (by decide)))
  exact .alt hline (h.fails_text (by decide))

theorem IsSep.ends (h : IsSep mark) (rest : List Char) : Ends (mark ++ rest) := by
  obtain ⟨c, k, rfl, rfl | rfl⟩ := h
  · exact .mark (by decide) _
  · exact .mark (by decide) _

theorem IsSep.reads (h : IsSep mark) (hrest : Fails breakMark rest) :
    Reads (.rule .separator) mark rest (· = []) := by
  obtain ⟨c, k, rfl, hc⟩ := h
  have hmark : Reads breakMark [c] (List.replicate k ' ' ++ rest) (· = []) := by
    rcases hc with rfl | rfl
    · exact .altLeft (.altLeft (.text (by decide) [] _))
    · exact .altRight (.first (by decide) (by decide) _) (.text (by decide) [] _)
  have hmany : Reads (.many breakMark) (List.replicate k ' ') rest (· = []) := by
    have := Reads.spaces k (.manyNone hrest)
    rwa [List.append_nil] at this
  refine .inline rfl (.mono (.seq (u := [c]) hmark hmany) ?_)
  rintro phs ⟨xs, ys, rfl, rfl, rfl⟩
  rfl

theorem Fails.separator (h : Fails breakMark rest) : Fails (.rule .separator) rest :=
  .inline rfl (.seqLeft h)

/-! ### Statements -/

/-- Statements, each behind a separator. -/
inductive Items (s : Reading.Supply env) : List Char → List Node → List Nat → Prop
  | nil : Items s [] [] []
  | cons {sep u v : List Char} {n : Node} {ns : List Node} {is js : List Nat}
    (hsep : IsSep sep) (h : IsExpr s u n is) (hs : Items s v ns js) :
    Items s (sep ++ (u ++ v)) (n :: ns) (is ++ js)

/-- A separator and a statement. -/
def nextItem : Peg Rule := seqs [.rule .separator, .rule .expr]

theorem Items.ends (h : Items s v ns is) (hrest : Ends rest) : Ends (v ++ rest) := by
  cases h with
  | nil => exact hrest
  | cons hsep =>
    rw [List.append_assoc]
    exact hsep.ends _

theorem One.standAll {rs : List Rule} {phs phs' : List (Phrase Rule)} (h : One s rs n is phs)
    (hs : s.StandAll phs' ns js) : s.StandAll (phs ++ phs') (n :: ns) (is ++ js) := by
  obtain ⟨r, sp, t, parts, -, rfl, hstands⟩ := h
  exact .cons hstands hs

theorem Items.more (h : Items s v ns is) (hends : Ends rest) (hstop : Fails nextItem rest) :
    More nextItem v rest fun phs => s.StandAll phs ns is := by
  induction h with
  | nil =>
    refine .mono (.nil hstop) ?_
    rintro phs rfl
    exact .nil
  | @cons sep u v n ns is js hsep h hs ih =>
    have hitem : Reads nextItem (sep ++ u) (v ++ rest) _ :=
      .seq (hsep.reads ((h.head.append _).noBreak)) (h.reads (hs.ends hends))
    rw [← List.append_assoc]
    refine .mono (.cons (by decide) hitem ih) ?_
    rintro phs ⟨xs, ys, rfl, ⟨us, vs, rfl, rfl, hone⟩, hys⟩
    exact hone.standAll hys

/-! ### Bodies -/

/-- Behind the statements of a body, `post` belongs to the body and `rest` does not. -/
structure Closes (post rest : List Char) : Prop where
  ends : Ends (post ++ rest)
  noItem : Fails nextItem (post ++ rest)
  reads : Reads (.opt (.rule .separator)) post rest (· = [])

theorem Closes.none (hends : Ends rest) (hsep : Fails breakMark rest) : Closes [] rest where
  ends := hends
  noItem := .seqLeft (.separator hsep)
  reads := .optNone (.separator hsep)

theorem Closes.sep (h : IsSep post) (hsep : Fails breakMark rest) (hexpr : Fails (.rule .expr) rest) :
    Closes post rest where
  ends := h.ends rest
  noItem := .seqRight (h.reads hsep) hexpr
  reads := .opt (h.reads hsep)

/-- Before the statements of a body there may be a separator. -/
def Opens (pre : List Char) : Prop := pre = [] ∨ IsSep pre

theorem Opens.reads (h : Opens pre) (hrest : Fails breakMark rest) :
    Reads (.opt (.rule .separator)) pre rest (· = []) := by
  rcases h with rfl | h
  · exact .optNone (.separator hrest)
  · exact .opt (h.reads hrest)

/-- A body with statements. -/
theorem reads_body (hpre : Opens pre) (hhead : HasHead u)
    (h : ReadsExpr s u (v ++ (post ++ rest)) n is) (hs : Items s v ns js)
    (hpost : Closes post rest) :
    Reads (.rule .body) (pre ++ ((u ++ v) ++ post)) rest
      (One s [.body] ⟨sp, .body (n :: ns)⟩ (is ++ js)) := by
  have hmore := (hs.more hpost.ends hpost.noItem).reads (by decide)
  have hlist : Reads (.opt (seqs [.rule .expr, .many nextItem])) (u ++ v) (post ++ rest) _ :=
    .opt (.seq h hmore)
  have hbreak : Fails breakMark (((u ++ v) ++ post) ++ rest) :=
    (((hhead.append v).append post).append rest).noBreak
  refine .mono (.phrase rfl (.seq (hpre.reads hbreak) (.seq hlist hpost.reads))) ?_
  rintro phs ⟨sp', parts, rfl, xs, ys, rfl, rfl, us, vs, rfl, ⟨as, bs, rfl, hone, hall⟩, rfl⟩
  refine ⟨.body, sp', "", _, by decide, rfl, ?_⟩
  rw [List.nil_append, List.append_nil]
  exact .body (hone.standAll hall)

/-- A body without statements. -/
theorem reads_body_nil (hpost : Opens post) (hsep : Fails breakMark rest)
    (hexpr : Fails (.rule .expr) rest) :
    Reads (.rule .body) post rest (One s [.body] ⟨sp, .body []⟩ []) := by
  have hlist : Reads (.opt (seqs [.rule .expr, .many nextItem])) [] rest (· = []) :=
    .optNone (.seqLeft hexpr)
  have hlast : Reads (.opt (.rule .separator)) [] rest (· = []) := .optNone (.separator hsep)
  have hfirst : Reads (.opt (.rule .separator)) post (([] ++ []) ++ rest) (· = []) :=
    hpost.reads hsep
  have hbody := Reads.seq hfirst (.seq hlist hlast)
  rw [List.append_nil, List.append_nil] at hbody
  refine .mono (.phrase rfl hbody) ?_
  rintro phs ⟨sp', parts, rfl, xs, ys, rfl, rfl, us, vs, rfl, rfl, rfl⟩
  exact ⟨.body, sp', "", _, by decide, rfl, .body .nil⟩

/-! ### Parentheses -/

theorem closes_paren (rest : List Char) : Closes [] (')' :: rest) :=
  .none (.paren rest) (.first (by decide) (by decide) rest)

/-- A body in parentheses is a simple expression. -/
theorem IsSimple.parens (sp : Span) (ns : List Node) (hne : ns ≠ [])
    (h : ∀ rest, Reads (.rule .body) u (')' :: rest) (One s [.body] ⟨sp, .body ns⟩ is)) :
    IsSimple s ('(' :: (u ++ [')'])) (Node.mk sp (.body ns)).collapse is where
  head := ⟨'(', _, rfl, by decide⟩
  noSign _ := .first (by decide) (by decide) _
  noAssign _ := .first (by decide) (by decide) _
  reads {rest} _ := by
    have hclose : Reads (lit ")") [')'] rest (· = []) := .text (by decide) [] rest
    have hopen : Reads (lit "(") ['('] ((u ++ [')']) ++ rest) (· = []) :=
      .text (by decide) [] _
    have hbody : Reads (.rule .body) u ([')'] ++ rest) (One s [.body] ⟨sp, .body ns⟩ is) := h rest
    refine .primary .parenthesized (by decide) (.mono (.phrase rfl (.seq hopen
      (.seq hbody hclose))) ?_) fun r hr => ?_
    · rintro phs ⟨sp', parts, rfl, xs, ys, rfl, rfl, us, vs, rfl, ⟨r, sp'', t, ps, -, rfl, hone⟩, rfl⟩
      exact ⟨_, rfl, .parenthesized hne hone⟩
    · have hall : ∀ r ∈ primaryRules.takeWhile (· ≠ .parenthesized), (Peg.rule r).avoids '(' = true := by
        decide
      exact .first (by decide) (hall r hr) _

/-- One expression in parentheses. -/
theorem IsExpr.parens (h : IsExpr s u n is) : IsSimple s ('(' :: (u ++ [')'])) n is := by
  refine .parens Span.zero [n] (by simp) fun rest => ?_
  have hbody : Reads (.rule .body) ([] ++ ((u ++ []) ++ [])) (')' :: rest)
      (One s [.body] ⟨Span.zero, .body [n]⟩ (is ++ [])) :=
    reads_body (.inl rfl) h.head (h.reads (.paren rest)) .nil (closes_paren rest)
  simpa only [List.nil_append, List.append_nil] using hbody

/-- Several statements in parentheses. -/
theorem IsExpr.parensItems (h : IsExpr s u n is) (hs : Items s v ns js) (hne : ns ≠ []) :
    IsSimple s ('(' :: ((u ++ v) ++ [')'])) ⟨sp, .body (n :: ns)⟩ (is ++ js) := by
  have hcollapse : (Node.mk sp (.body (n :: ns))).collapse = ⟨sp, .body (n :: ns)⟩ := by
    cases ns with
    | nil => exact absurd rfl hne
    | cons _ _ => rfl
  rw [← hcollapse]
  refine .parens sp (n :: ns) (by simp) fun rest => ?_
  have hbody : Reads (.rule .body) ([] ++ ((u ++ v) ++ [])) (')' :: rest)
      (One s [.body] ⟨sp, .body (n :: ns)⟩ (is ++ js)) :=
    reads_body (.inl rfl) h.head (h.reads (hs.ends (.paren rest))) hs (closes_paren rest)
  simpa only [List.nil_append, List.append_nil] using hbody

/-! ### Operators -/

section Operators

variable {cs' : List Char} {n' : Node} {op : String}

/-- An operator and its right operand. -/
def nextOperand : Peg Rule := seqs [.rule .infixOp, .rule .newlines, .rule .operand]

theorem HasHead.noNewline (h : HasHead u) : Fails Rule.newline u :=
  .alt (h.fails_text (by decide)) (.alt (h.fails_text (by decide)) (h.fails_text (by decide)))

theorem Reads.noNewlines (h : Fails Rule.newline rest) : Reads (.rule .newlines) [] rest (· = []) :=
  .inline rfl (.manyNone h)

/-- Before an operator a backquote opens no hole: what comes behind the operator is at
    most a negated operand, and no backquote comes behind that. -/
theorem noHole_operator (hop : op ∈ Operator.all) (h : IsOperand s u n is) (rest : List Char) :
    Fails (.rule .hole) ('`' :: ' ' :: (op.toList ++ ' ' :: (u ++ ')' :: rest))) := by
  have hopen : Reads (lit "`") ['`'] (' ' :: (op.toList ++ ' ' :: (u ++ ')' :: rest))) (· = []) :=
    .text (by decide) [] _
  have hplain (hexpr : Fails (.rule .expr) (op.toList ++ ' ' :: (u ++ ')' :: rest)))
      (href : Fails (.rule .holeRef) (op.toList ++ ' ' :: (u ++ ')' :: rest))) :
      Fails (.rule .hole) ('`' :: ' ' :: (op.toList ++ ' ' :: (u ++ ')' :: rest))) :=
    .phrase rfl (.seqRight hopen (.seqLeft (.alt (.space href) (.space hexpr))))
  have hall : ∀ op ∈ Operator.all, op = "-" ∨ op = "!=" ∨ op.toList.head?.any (fun c =>
      Blank.solid c && (Peg.rule .expr).avoids c && (Peg.rule .holeRef).avoids c) = true := by decide
  rcases hall op hop with rfl | rfl | hfirst
  · have hsign : Reads (.rule .signOp) ['-'] ((' ' :: u) ++ ')' :: rest) _ :=
      .negOp fun d v heq => by cases heq; decide
    have hoperand : Reads Rule.operand.expression (' ' :: u) (')' :: rest) _ :=
      .space fun pos => by
        have := h.reads (.ends (.paren rest)) (Ends.paren rest).noPoint pos
        rwa [Language.take_inline rfl] at this
    have hbinary : Reads Rule.binary.expression ((['-'] ++ ' ' :: u) ++ []) (')' :: rest) _ :=
      .seq (.inline rfl (.manyCons (by decide) hsign hoperand))
        (.manyNone (.first (by decide) (by decide) rest))
    have hternary : Reads Rule.ternary.expression (((['-'] ++ ' ' :: u) ++ []) ++ [])
        (')' :: rest) _ :=
      .seq (.phrase rfl hbinary) (.optNone (.first (by decide) (by decide) rest))
    have hexpr : Reads (alts [.rule .holeRef, .rule .expr]) (((['-'] ++ ' ' :: u) ++ []) ++ [])
        (')' :: rest) _ :=
      .altRight (.first (by decide) (by decide) _) (.inline rfl
        (.altRight (.first (by decide) (by decide) _) (.phrase rfl hternary)))
    have hclose : Fails (lit "`") (')' :: rest) := .first (by decide) (by decide) rest
    have hfail := Fails.seqRight (.space hexpr) hclose
    simp only [List.append_nil] at hfail
    exact .phrase rfl (.seqRight hopen hfail)
  · have hnot : Fails (.rule .notOp) ('!' :: '=' :: ' ' :: (u ++ ')' :: rest)) :=
      .token rfl (by decide) (.seqRight (u := ['!']) (.text ['!'] _)
        (.refuse (u := ['=']) (.text ['='] _)))
    have hsign : Fails (.rule .signOp) ('!' :: '=' :: ' ' :: (u ++ ')' :: rest)) :=
      .inline rfl (.alt hnot (.first (by decide) (by decide) _))
    have hprimary : Fails (.rule .primary) ('!' :: '=' :: ' ' :: (u ++ ')' :: rest)) :=
      .first (by decide) (by decide) _
    exact hplain (.expr (.first (by decide) (by decide) _) (.operand hsign hprimary))
      (.first (by decide) (by decide) _)
  · cases hlist : op.toList with
    | nil => rw [hlist] at hfirst; cases hfirst
    | cons c v =>
      rw [hlist] at hfirst hplain
      simp only [List.head?_cons, Option.any_some, Bool.and_eq_true] at hfirst
      rw [hlist] at hopen
      exact hplain (.first hfirst.1.1 hfirst.1.2 _) (.first hfirst.1.1 hfirst.2 _)

/-- Two operands with an operator between them, in parentheses. -/
theorem IsOperand.between (hop : op ∈ Operator.all) (h : IsOperand s u n is)
    (h' : IsOperand s cs' n' js) :
    IsSimple s ('(' :: ((u ++ (' ' :: op.toList ++ ' ' :: cs')) ++ [')']))
      ⟨sp, .call n op [n'] none⟩ (is ++ js) := by
  refine .parens Span.zero [⟨sp, .call n op [n'] none⟩] (by simp) fun rest => ?_
  have hleft : Boundary (' ' :: (op.toList ++ ' ' :: (cs' ++ ')' :: rest))) :=
    .operator hop (noHole_operator hop h' rest)
  have hends := Ends.paren rest
  have hleftPoint : NoPoint (' ' :: (op.toList ++ ' ' :: (cs' ++ ')' :: rest))) :=
    fun _ h => by cases h
  have hright : Reads nextOperand (' ' :: op.toList ++ ([] ++ ' ' :: cs')) (')' :: rest) _ :=
    .seq (.space (.infixOp hop (cs' ++ ')' :: rest)))
      (.seq (.noNewlines (.space ((h'.head.append _).noNewline)))
        (.space (h'.reads (.ends hends) hends.noPoint)))
  have hmany : Reads (.many nextOperand) ((' ' :: op.toList ++ ([] ++ ' ' :: cs')) ++ [])
      (')' :: rest) _ := .many (by decide) hright (.nil (.first (by decide) (by decide) rest))
  rw [List.nil_append, List.append_nil] at hmany
  have hleftReads := h.reads hleft hleftPoint
  have hbinary : Reads Rule.binary.expression (u ++ (' ' :: op.toList ++ ' ' :: cs'))
      (')' :: rest) _ := .seq (by simpa using hleftReads) hmany
  have hassign : Fails (.rule .assignment) ((u ++ (' ' :: op.toList ++ ' ' :: cs')) ++ ')' :: rest) := by
    have := h.noAssign hleft
    simpa using this
  have hexpr : ReadsExpr s (u ++ (' ' :: op.toList ++ ' ' :: cs')) (')' :: rest)
      ⟨sp, .call n op [n'] none⟩ (is ++ js) := by
    refine .of_binary hends hassign hbinary ?_
    rintro sp' t phs ⟨xs, ys, rfl, hxs, us, vs, rfl, ⟨as, bs, rfl, ⟨sp'', rfl⟩, u, v, rfl, rfl, hv⟩, rfl⟩
    simpa using Reading.Supply.Stands.between hxs hv
  have hbody : Reads (.rule .body) ([] ++ (((u ++ (' ' :: op.toList ++ ' ' :: cs')) ++ []) ++ []))
      (')' :: rest) (One s [.body] ⟨Span.zero, .body [⟨sp, .call n op [n'] none⟩]⟩ ((is ++ js) ++ [])) :=
    reads_body (.inl rfl) (h.head.append _) hexpr .nil (closes_paren rest)
  simpa only [List.nil_append, List.append_nil] using hbody

end Operators

/-! ### Programs -/

/-- A text that reads as a body to its end is read as the program of it. -/
theorem yields_program {text : String}
    (h : Reads (.rule .body) text.toList [] (One s [.body] n is)) :
    s.Yields (env.program text) is fun m => m.unplaced = n.unplaced := by
  obtain ⟨phs, q, pos, hbody, hskip, r, sp, t, parts, -, rfl, hstands⟩ := h 0
  rw [List.append_nil] at hbody
  have hend : language.take {} (.rule .endOfText) (language.next {} q) = some ([], ⟨pos, []⟩) := by
    rw [Language.next_spaced, hskip, Blank.skip_nil, Language.take_keyword rfl]
    show (language.take .token .stop ⟨pos, []⟩).map _ = _
    rw [Grammar.take_stop]
    rfl
  have hstart : language.take {} (.text []) ⟨0, text.toList⟩ = some ([], ⟨0, text.toList⟩) := by
    rw [Grammar.take_text]
    rfl
  have hparts : language.take {} (seqs [.rule .body, .rule .endOfText])
      (language.next {} ⟨0, text.toList⟩) = some ([⟨r, sp, t, parts⟩], ⟨pos, []⟩) := by
    rw [Language.next_spaced]
    exact Grammar.take_seq_eq_some.2 ⟨[⟨r, sp, t, parts⟩], q, [], hbody, hend, rfl⟩
  have hexpression : language.take {} Rule.program.expression ⟨0, text.toList⟩ =
      some ([⟨r, sp, t, parts⟩], ⟨pos, []⟩) :=
    Grammar.take_seq_eq_some.2 ⟨[], _, [⟨r, sp, t, parts⟩], hstart, hparts, rfl⟩
  have hread : language.read .program text = .ok ⟨.program, ⟨0, pos⟩, "", [⟨r, sp, t, parts⟩]⟩ := by
    refine Language.read_eq_ok_iff.2 ⟨[], ⟨pos, []⟩, ?_⟩
    rw [Language.take_phrase rfl, hexpression]
    rfl
  have hprogram : env.program text = env.node ⟨r, sp, t, parts⟩ := by
    delta Reading.program
    rw [hread]
  rw [hprogram]
  exact hstands

/-- **Theorem.** A text of statements, each behind a separator, is the program of them. -/
theorem parse_statements {source text : String} {anchor : Option Span}
    (htext : text.toList = u ++ v) (h : IsExpr (.empty { source, anchor }) u n is)
    (hs : Items (.empty { source, anchor }) v ns js) :
    ∃ p, Program.parse source text anchor = .ok p ∧
      p.unplaced = (⟨sp, .body (n :: ns)⟩ : Node).unplaced := by
  have hcloses : Closes [] [] := .none .done (.nil (by decide))
  have hbody : Reads (.rule .body) ([] ++ ((u ++ v) ++ [])) []
      (One (.empty { source, anchor }) [.body] ⟨sp, .body (n :: ns)⟩ (is ++ js)) :=
    reads_body (.inl rfl) h.head (h.reads (hs.ends .done)) hs hcloses
  rw [List.nil_append, List.append_nil, ← htext] at hbody
  obtain ⟨-, p, hrun, hp⟩ := yields_program hbody [] rfl
  exact ⟨p, congrArg Prod.fst hrun, hp⟩

end Quasiquote
