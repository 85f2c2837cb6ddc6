import Quasiquote.Proofs.Grammar.Combinators
import Quasiquote.Node.Operator

namespace Quasiquote

/-!
# What may come behind an expression

Behind a printed expression comes the end of the text, a closing mark or a separator;
behind an operand also an operator, and behind the receiver of a call its point.  None
of these can be taken for a part of the expression.

* `Ends`, `Boundary` — the texts that may come behind an expression, an operand or
  a receiver;
* `Boundary.edge`, `Boundary.noArgs`, `Boundary.noCommand`, … — what they exclude;
* `Fails.expr`, `fails_expr_stopWord` — where no expression starts.
-/

open Peg (lit seqs alts)

/-! ### Alternatives -/

theorem Fails.anyOf {es : List (Peg Rule)} {u : List Char} (h : ∀ e ∈ es, Fails e u) :
    Fails (Peg.alts es) u := fun pos => by
  induction es with
  | nil => exact take_alts_nil _ _
  | cons e es ih =>
    rw [take_alts_cons, h e List.mem_cons_self pos, Option.none_or]
    exact ih fun e' he' => h e' (List.mem_cons_of_mem _ he')

/-- If one of several alternatives matches, they do not all fail. -/
theorem take_alts_isSome {es : List (Peg Rule)} {e : Peg Rule} {p : Place} (he : e ∈ es)
    (h : (language.take {} e p).isSome) : (language.take {} (alts es) p).isSome := by
  induction es with
  | nil => cases he
  | cons e' es ih =>
    rw [take_alts_cons, Option.isSome_or, Bool.or_eq_true]
    rcases List.mem_cons.1 he with rfl | he
    · exact .inl h
    · exact .inr (ih he)

/-- The alternatives of a simple expression, in order. -/
def primaryRules : List Rule :=
  [.float, .integer, .string, .kwTrue, .kwFalse, .kwNil, .kwSelf, .quoted, .ifExpr, .classDef,
    .methodDef, .hole, .parenthesized, .field, .functionCall, .command, .constant, .name]

/-- An alternative reads if those before it fail. -/
theorem Reads.oneOf {rs : List Rule} {r : Rule} {u rest : List Char}
    {P : List (Phrase Rule) → Prop} (hr : r ∈ rs) (h : Reads (.rule r) u rest P)
    (hbefore : ∀ r' ∈ rs.takeWhile (· ≠ r), Fails (.rule r') (u ++ rest)) :
    Reads (alts (rs.map .rule)) u rest P := by
  induction rs with
  | nil => cases hr
  | cons r' rs ih =>
    by_cases heq : r' = r
    · cases heq
      cases rs with
      | nil => exact h
      | cons _ _ => exact .altLeft h
    · have hne : decide (r' ≠ r) = true := by simpa using heq
      rw [List.takeWhile_cons, if_pos hne] at hbefore
      have hmem : r ∈ rs := (List.mem_cons.1 hr).resolve_left fun h => heq h.symm
      have hrest := ih hmem fun r'' hr'' => hbefore r'' (List.mem_cons_of_mem _ hr'')
      cases rs with
      | nil => cases hmem
      | cons _ _ => exact .altRight (hbefore r' List.mem_cons_self) hrest

/-- An alternative of a simple expression reads if those before it fail. -/
theorem Reads.primary {u rest : List Char} {P : List (Phrase Rule) → Prop} (r : Rule)
    (hr : r ∈ primaryRules) (h : Reads (.rule r) u rest P)
    (hbefore : ∀ r' ∈ primaryRules.takeWhile (· ≠ r), Fails (.rule r') (u ++ rest)) :
    Reads (.rule .primary) u rest P := .inline rfl (.oneOf hr h hbefore)

/-! ### Where no expression starts -/

theorem Fails.primary {u : List Char} (h : ∀ r ∈ primaryRules, Fails (.rule r) u) :
    Fails (.rule .primary) u := by
  refine .inline rfl ?_
  show Fails (alts (primaryRules.map Peg.rule)) u
  refine .anyOf fun e he => ?_
  obtain ⟨r, hr, rfl⟩ := List.mem_map.1 he
  exact h r hr

theorem Fails.operand {u : List Char} (hsign : Fails (.rule .signOp) u)
    (hprimary : Fails (.rule .primary) u) : Fails (.rule .operand) u := by
  have hchain : Fails (.rule .chain) u := .phrase rfl (.seqLeft hprimary)
  exact .inline rfl (.seqRight (u := []) (.manyNone hsign) hchain)

theorem Fails.expr {u : List Char} (hassign : Fails (.rule .assignment) u)
    (hoperand : Fails (.rule .operand) u) : Fails (.rule .expr) u := by
  have hbinary : Fails (.rule .binary) u := .phrase rfl (.seqLeft hoperand)
  have hternary : Fails (.rule .ternary) u := .phrase rfl (.seqLeft hbinary)
  exact .inline rfl (.alt hassign hternary)

/-- Before a backquote only a hole can be an expression. -/
theorem fails_expr_tick {u : List Char} (h : Fails (.rule .hole) ('`' :: u)) :
    Fails (.rule .expr) ('`' :: u) := by
  refine .expr (.first (by decide) (by decide) _) (.operand (.first (by decide) (by decide) _) ?_)
  refine .primary fun r hr => ?_
  have hrules : ∀ r ∈ primaryRules, r = .hole ∨ (Peg.rule r).avoids '`' = true := by decide
  rcases hrules r hr with rfl | havoid
  · exact h
  · exact .first (by decide) havoid u

theorem solid_of_isIdent {c : Char} (h : isIdent c = true) : Blank.solid c = true := by
  have hne (d : Char) (hd : isIdent d = false) : (c == d) = false := by
    rw [beq_eq_false_iff_ne]
    rintro rfl
    rw [h] at hd
    cases hd
  simp [Blank.solid, hne ' ' (by decide), hne '\t' (by decide), hne '\r' (by decide),
    hne '\\' (by decide), hne '#' (by decide)]

section Reserved

variable {w : String} {rest : List Char}

theorem fails_name_reserved (hw : w ∈ reservedWords) (hrest : Edge rest) :
    Fails (.rule .name) (w.toList ++ rest) ∧ Fails (.rule .functionName) (w.toList ++ rest) := by
  have hhead : ∃ c u, w.toList = c :: u := by
    have hall : ∀ w ∈ reservedWords, w.toList ≠ [] := by decide
    cases hlist : w.toList with
    | nil => exact absurd hlist (hall w hw)
    | cons c u => exact ⟨c, u, rfl⟩
  obtain ⟨c, u, hlist⟩ := hhead
  have hsolid : Blank.solid c = true :=
    solid_of_isIdent (isIdent_of_mem_reservedWords hw c (by rw [hlist]; exact List.mem_cons_self))
  have hno {e : Peg Rule} :
      NoLexeme (.seq (.refuse (.rule .reserved)) e) (c :: (u ++ rest)) := by
    have := NoLexeme.seqLeft (b := e) (.refuse (Lexeme.reserved hw hrest))
    rwa [hlist] at this
  rw [hlist]
  exact ⟨.token rfl hsolid hno, .token rfl hsolid hno⟩

/-- The words that come behind a body. -/
def stopWords : List String := ["end", "else"]

/-- No expression starts with a word that comes behind a body. -/
theorem fails_expr_stopWord (hw : w ∈ stopWords) (hrest : Edge rest) :
    Fails (.rule .expr) (w.toList ++ rest) := by
  have hmem : ∀ w ∈ stopWords, w ∈ reservedWords := by decide
  have hfirst : ∀ w ∈ stopWords, w.toList.head?.any (fun c =>
      Blank.solid c && (Peg.rule .field).avoids c && (Peg.rule .signOp).avoids c &&
        primaryRules.all fun r =>
          r == .functionCall || r == .command || r == .name || (Peg.rule r).avoids c) = true := by
    decide
  obtain ⟨hname, hfunction⟩ := fails_name_reserved (hmem w hw) hrest
  have hw := hfirst w hw
  cases hlist : w.toList with
  | nil => rw [hlist] at hw; cases hw
  | cons c u =>
    simp only [hlist, List.head?_cons, Option.any_some, Bool.and_eq_true, List.all_eq_true,
      Bool.or_eq_true, beq_iff_eq] at hw
    obtain ⟨⟨⟨hsolid, hfield⟩, hsign⟩, hprimary⟩ := hw
    rw [hlist] at hname hfunction
    refine .expr (.phrase rfl (.seqLeft (.alt (.first hsolid hfield _) hname)))
      (.operand (.first hsolid hsign _) (.primary fun r hr => ?_))
    rcases hprimary r hr with ((rfl | rfl) | rfl) | havoid
    · exact .phrase rfl (.seqLeft hfunction)
    · exact .phrase rfl (.seqLeft hname)
    · exact hname
    · exact .first hsolid havoid _

end Reserved

/-! ### What comes behind an expression -/

/-- What comes behind an expression. -/
inductive Ends : List Char → Prop
  | done : Ends []
  | mark {c : Char} (h : c ∈ [')', ',', ';', '\n']) (u : List Char) : Ends (c :: u)
  | tick {u : List Char} (h : Fails (.rule .hole) ('`' :: u)) : Ends ('`' :: u)

/-- What comes behind an operand or the receiver of a call. -/
inductive Boundary : List Char → Prop
  | ends {rest : List Char} (h : Ends rest) : Boundary rest
  | point {c : Char} (h : c.isDigit = false) (u : List Char) : Boundary ('.' :: c :: u)
  | operator {op : String} (hop : op ∈ Operator.all) {u : List Char}
    (h : Fails (.rule .hole) ('`' :: ' ' :: (op.toList ++ ' ' :: u))) :
    Boundary (' ' :: (op.toList ++ ' ' :: u))

/-- The characters that can come first behind an expression. -/
def endMarks : List Char := [')', ',', ';', '\n', '`']

/-- What takes no mark first fails behind an expression. -/
theorem Ends.fails {e : Peg Rule} {rest : List Char} (h : Ends rest)
    (hmarks : ∀ c ∈ endMarks, e.avoids c = true) : Fails e rest := by
  have hsolid : ∀ c ∈ endMarks, Blank.solid c = true := by decide
  cases h with
  | done =>
    have := hmarks ')' (by decide)
    simp only [Peg.avoids, Bool.and_eq_true, Bool.not_eq_true'] at this
    exact .nil this.1
  | @mark c hc u =>
    have hmem : ∀ c ∈ [')', ',', ';', '\n'], c ∈ endMarks := by decide
    exact .first (hsolid c (hmem c hc)) (hmarks c (hmem c hc)) u
  | tick => exact .first (hsolid '`' (by decide)) (hmarks '`' (by decide)) _

/-- The first characters of operators. -/
theorem exists_operator_head {op : String} (hop : op ∈ Operator.all) :
    ∃ c u, op.toList = c :: u ∧ c ∈ ['|', '&', '=', '!', '<', '>', '+', '-', '*', '/', '%'] := by
  have hall : ∀ op ∈ Operator.all, op.toList.head?.any (fun c =>
      ['|', '&', '=', '!', '<', '>', '+', '-', '*', '/', '%'].contains c) = true := by decide
  have := hall op hop
  cases hlist : op.toList with
  | nil => rw [hlist] at this; cases this
  | cons c u =>
    rw [hlist] at this
    exact ⟨c, u, rfl, by simpa using this⟩

/-! ### Operators and the ends of commands -/

/-- An operator before a space is taken whole. -/
theorem Reads.infixOp {op : String} (hop : op ∈ Operator.all) (u : List Char) :
    Reads (.rule .infixOp) op.toList (' ' :: u) fun phs =>
      ∃ sp, phs = [⟨.infixOp, sp, op, []⟩] := by
  have hsolid : ∀ op ∈ Operator.all, op.toList.head?.any Blank.solid = true := by decide
  have hlexeme : Lexeme Rule.infixOp.expression op.toList (' ' :: u) := by
    refine .texts ?_
    simp only [Operator.all, List.mem_cons, List.not_mem_nil, or_false] at hop
    rcases hop with rfl | rfl | rfl | rfl | rfl | rfl | rfl | rfl | rfl | rfl | rfl | rfl | rfl |
      rfl <;> simp [List.isPrefixOf]
  exact .tokenText rfl (hsolid op hop) hlexeme

/-- What shows that a command has no arguments here. -/
def commandStops : List (Peg Rule) :=
  [.rule .infixOp] ++ ["=", "?", ":", ".", ",", ")", "\x7d", "\x7b", "|", "&"].map lit ++
    [.rule .kwDo, .rule .kwEnd, .rule .kwThen, .rule .kwElse, .rule .kwElsif, Rule.newline,
      lit ";", .rule .endOfText]

theorem fails_at_commandStop {e f : Peg Rule} {u rest : List Char}
    {P : List (Phrase Rule) → Prop} (he : e ∈ commandStops) (h : Reads e u rest P) :
    Fails (.seq (.refuse (.rule .commandStop)) f) (u ++ rest) := .seqLeft fun pos => by
  obtain ⟨phs, q, pos', htake, -⟩ := h pos
  have hstop := take_alts_isSome he (by rw [htake]; rfl)
  rw [Grammar.take_refuse, Language.take_inline rfl]
  exact if_pos hstop

/-- What fails on its own fails behind any guard. -/
theorem Fails.guarded {a b : Peg Rule} {u : List Char} (h : Fails b u) :
    Fails (.seq (.refuse a) b) u := fun pos => by
  rw [Grammar.take_seq, Grammar.take_refuse]
  split
  · rfl
  · rw [Option.bind_some, Language.next_spaced, Blank.skip_skip, h pos]
    rfl

namespace Boundary

variable {rest : List Char}

/-- What takes neither a mark nor a point nor an operator first fails behind an
    operand. -/
theorem fails {e : Peg Rule} (h : Boundary rest)
    (hmarks : ∀ c ∈ '.' :: endMarks ++ ['|', '&', '=', '!', '<', '>', '+', '-', '*', '/', '%'],
      e.avoids c = true) : Fails e rest := by
  cases h with
  | ends h => exact h.fails fun c hc => hmarks c (by simp_all)
  | point => exact .first (by decide) (hmarks '.' (by decide)) _
  | operator hop =>
    obtain ⟨c, u, hlist, hc⟩ := exists_operator_head hop
    have hsolid : ∀ c ∈ ['|', '&', '=', '!', '<', '>', '+', '-', '*', '/', '%'],
      Blank.solid c = true := by decide
    rw [hlist]
    exact .space (.first (hsolid c hc) (hmarks c (by simp_all)) _)

theorem noArgs (h : Boundary rest) : Fails (.rule .callArgs) rest := h.fails (by decide)

theorem noBlock (h : Boundary rest) : Fails (.rule .anyBlock) rest := h.fails (by decide)

/-- No token goes on behind an operand. -/
theorem methodEdge (h : Boundary rest) : MethodEdge rest := by
  have hends : ∀ c ∈ '.' :: ' ' :: endMarks, isIdent c = false ∧ c ≠ '=' ∧ c ≠ '<' := by decide
  cases h with
  | ends h =>
    cases h with
    | done => exact methodEdge_nil
    | mark hc =>
      have hmem : ∀ c ∈ [')', ',', ';', '\n'], c ∈ '.' :: ' ' :: endMarks := by decide
      exact methodEdge_cons (hends _ (hmem _ hc)) _
    | tick => exact methodEdge_cons (hends _ (by decide)) _
  | point => exact methodEdge_cons (hends _ (by decide)) _
  | operator => exact methodEdge_cons (hends _ (by decide)) _

theorem edge (h : Boundary rest) : Edge rest := h.methodEdge.edge

/-- A number ends at an operand's end. -/
theorem not_digit (h : Boundary rest) {d : Char} {v : List Char} (heq : rest = '.' :: d :: v) :
    d.isDigit = false := by
  subst heq
  cases h with
  | ends h =>
    cases h with
    | mark hc => simp at hc
  | point h => exact h

/-- No assignment goes on behind an operand: an equals sign there is half of `==`. -/
theorem noAssign (h : Boundary rest) : Fails (seqs [lit "=", .refuse (lit "="),
    .rule .newlines, .rule .expr]) rest := by
  cases h with
  | ends h => exact h.fails (by decide)
  | point => exact .first (by decide) (by decide) _
  | @operator op hop u _ =>
    by_cases heq : op = "=="
    · subst heq
      refine .space ?_
      exact .seqRight (u := ['=']) (.text (by decide) [] _)
        (.seqLeft (.refuse (u := ['=']) (.text (by decide) [] _)))
    · have hall : ∀ op ∈ Operator.all, op = "==" ∨ op.toList.head?.any (fun c =>
          Blank.solid c && (lit "=" : Peg Rule).avoids c) = true := by decide
      have hop := (hall op hop).resolve_left heq
      cases hlist : op.toList with
      | nil => rw [hlist] at hop; cases hop
      | cons c u =>
        rw [hlist] at hop
        simp only [List.head?_cons, Option.any_some, Bool.and_eq_true] at hop
        exact .space (.seqLeft (.first hop.1 hop.2 _))

/-- A hole that starts before an operand's end fails. -/
theorem noHole (h : Boundary rest) : Fails (.rule .hole) ('`' :: rest) := by
  have hopen {u : List Char} (hexpr : Fails (.rule .expr) u) (href : Fails (.rule .holeRef) u) :
      Fails (.rule .hole) ('`' :: u) :=
    .phrase rfl (.seqRight (u := ['`']) (.text (by decide) [] _) (.seqLeft (.alt href hexpr)))
  cases h with
  | ends h =>
    cases h with
    | done => exact hopen (.nil (by decide)) (.nil (by decide))
    | @mark c hc u =>
      have hmarks : ∀ c ∈ [')', ',', ';', '\n'], Blank.solid c = true ∧
        (Peg.rule .expr).avoids c = true ∧ (Peg.rule .holeRef).avoids c = true := by decide
      obtain ⟨hsolid, hexpr, href⟩ := hmarks c hc
      exact hopen (.first hsolid hexpr u) (.first hsolid href u)
    | tick h => exact hopen (fails_expr_tick h) (.first (by decide) (by decide) _)
  | point => exact hopen (.first (by decide) (by decide) _) (.first (by decide) (by decide) _)
  | operator _ h => exact h

/-- The arguments of a command do not start behind an operand. -/
theorem noCommand (h : Boundary rest) : Fails (seqs [.refuse (.rule .commandStop),
    .rule .commandArgs, .opt (.rule .doBlock)]) rest := by
  cases h with
  | ends h =>
    cases h with
    | done => exact .nil (by decide)
    | @mark c hc u =>
      simp only [List.mem_cons, List.not_mem_nil, or_false] at hc
      rcases hc with rfl | rfl | rfl | rfl
      · exact fails_at_commandStop (e := lit ")") (u := [')']) (List.mem_of_getElem? (i := 6) rfl)
          (.text (by decide) [] u)
      · exact fails_at_commandStop (e := lit ",") (u := [',']) (List.mem_of_getElem? (i := 5) rfl)
          (.text (by decide) [] u)
      · exact fails_at_commandStop (e := lit ";") (u := [';']) (List.mem_of_getElem? (i := 17) rfl)
          (.text (by decide) [] u)
      · exact fails_at_commandStop (e := Rule.newline) (u := ['\n']) (List.mem_of_getElem? (i := 16) rfl)
          (.altLeft (.text (by decide) [] u))
    | tick h =>
      have hargs : Fails (.rule .commandArgs) _ := .phrase rfl (.seqLeft (fails_expr_tick h))
      exact .guarded (.seqLeft hargs)
  | point =>
    exact fails_at_commandStop (e := lit ".") (u := ['.']) (List.mem_of_getElem? (i := 4) rfl) (.text (by decide) [] _)
  | @operator op hop u _ =>
    refine .space (fails_at_commandStop (e := .rule .infixOp) (u := op.toList) (List.mem_of_getElem? (i := 0) rfl)
      (.infixOp hop u))

end Boundary

end Quasiquote
