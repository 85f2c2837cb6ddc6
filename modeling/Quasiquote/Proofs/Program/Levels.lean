import Quasiquote.Proofs.Program.Boundary
import Quasiquote.Proofs.Program.Phrases

namespace Quasiquote

/-!
# Texts that read as nodes

The levels of the grammar — simple expressions, chains of calls, operands, expressions
— as properties of a text and the node that it stands for.  Each level holds in front of
everything that may come behind a text of that level.

* `IsSimple`, `IsChain`, `IsOperand`, `IsExpr` — the levels;
* `IsSimple.chain`, `IsChain.operand`, `IsOperand.expr` — from one level to the next;
* `IsOperand.not`, `IsOperand.neg` — signs.
-/

open Peg (lit seqs alts)

/-- The characters with which expressions start. -/
def startsExpr (c : Char) : Bool :=
  isIdent c || ['-', '"', '`', '(', '@', '!'].contains c

/-- A text that starts like an expression. -/
def HasHead (u : List Char) : Prop := ∃ c v, u = c :: v ∧ startsExpr c = true

theorem HasHead.append {u : List Char} (h : HasHead u) (v : List Char) : HasHead (u ++ v) := by
  obtain ⟨c, es, rfl, hc⟩ := h
  exact ⟨c, es ++ v, rfl, hc⟩

theorem solid_of_startsExpr {c : Char} (h : startsExpr c = true) : Blank.solid c = true := by
  simp only [startsExpr, Bool.or_eq_true] at h
  rcases h with h | h
  · exact solid_of_isIdent h
  · have hall : ∀ c ∈ ['-', '"', '`', '(', '@', '!'], Blank.solid c = true := by decide
    exact hall c (by simpa using h)

/-- A mark that starts no expression does not come at the head of one. -/
theorem HasHead.fails_text {u : List Char} (h : HasHead u) {d : Char} {v : List Char}
    (hd : startsExpr d = false) : Fails (.text (d :: v)) u := by
  obtain ⟨c, es, rfl, hc⟩ := h
  refine .first (solid_of_startsExpr hc) ?_ es
  have hne : c ≠ d := by
    rintro rfl
    rw [hc] at hd
    cases hd
  simp [Peg.avoids, Peg.mayBeEmpty, Peg.takesFirst, hne]

variable {env : Reading} (s : Reading.Supply env)

/-- What one phrase of some rules leaves that stands for a node. -/
def One (rs : List Rule) (n : Node) (is : List Nat) (phs : List (Phrase Rule)) : Prop :=
  ∃ r sp t parts, r ∈ rs ∧ phs = [⟨r, sp, t, parts⟩] ∧ s.Stands ⟨r, sp, t, parts⟩ n is

/-- In front of a certain rest, a text reads as an expression for a node. -/
def ReadsExpr (u rest : List Char) (n : Node) (is : List Nat) : Prop :=
  Reads (.rule .expr) u rest (One s [.assignment, .ternary] n is)

/-- A text that reads as an expression wherever one may end. -/
structure IsExpr (u : List Char) (n : Node) (is : List Nat) : Prop where
  head : HasHead u
  reads {rest : List Char} (h : Ends rest) : ReadsExpr s u rest n is

/-- Nothing that makes a call comes next. -/
def NoPoint (rest : List Char) : Prop := ∀ u, rest ≠ '.' :: u

/-- A text that reads as an operand: signs and a chain of calls. -/
structure IsOperand (u : List Char) (n : Node) (is : List Nat) : Prop where
  head : HasHead u
  noAssign {rest : List Char} (h : Boundary rest) : Fails (.rule .assignment) (u ++ rest)
  reads {rest : List Char} (h : Boundary rest) (hpoint : NoPoint rest) :
    Reads (.rule .operand) u rest fun phs => s.Operands phs n is

/-- A text that reads as a chain of calls, with more calls behind it. -/
structure IsChain (u : List Char) (n : Node) (is : List Nat) : Prop where
  head : HasHead u
  noSign (rest : List Char) : Fails (.rule .signOp) (u ++ rest)
  noAssign {rest : List Char} (h : Boundary rest) : Fails (.rule .assignment) (u ++ rest)
  reads {v rest : List Char} {Q : List (Phrase Rule) → Prop} (h : Boundary (v ++ rest))
    (hmore : More (.rule .suffix) v rest Q) :
    Reads Rule.chain.expression (u ++ v) rest fun phs =>
      ∃ ph xs ys, phs = ph :: (xs ++ ys) ∧ s.Chained ph xs n is ∧ Q ys

/-- A text that reads as a simple expression. -/
structure IsSimple (u : List Char) (n : Node) (is : List Nat) : Prop where
  head : HasHead u
  noSign (rest : List Char) : Fails (.rule .signOp) (u ++ rest)
  noAssign {rest : List Char} (h : Boundary rest) : Fails (.rule .assignment) (u ++ rest)
  reads {rest : List Char} (h : Boundary rest) :
    Reads (.rule .primary) u rest fun phs => ∃ ph, phs = [ph] ∧ s.Stands ph n is

variable {s} {u rest : List Char} {n : Node} {is : List Nat}

theorem Boundary.noSuffix (h : Boundary rest) (hpoint : NoPoint rest) :
    Fails (.rule .suffix) rest := by
  cases h with
  | ends h => exact h.fails (by decide)
  | point => exact absurd rfl (hpoint _)
  | operator hop =>
    obtain ⟨c, u, hlist, hc⟩ := exists_operator_head hop
    have hall : ∀ c ∈ ['|', '&', '=', '!', '<', '>', '+', '-', '*', '/', '%'],
      Blank.solid c = true ∧ (Peg.rule .suffix).avoids c = true := by decide
    rw [hlist]
    exact .space (.first (hall c hc).1 (hall c hc).2 _)

theorem IsSimple.chain (h : IsSimple s u n is) : IsChain s u n is where
  head := h.head
  noSign := h.noSign
  noAssign := h.noAssign
  reads {v rest Q} hboundary hmore := by
    refine .mono (.seq (h.reads hboundary) (hmore.reads (by decide))) ?_
    rintro phs ⟨xs, ys, rfl, ⟨ph, rfl, hph⟩, hys⟩
    exact ⟨ph, [], ys, rfl, .nil hph, hys⟩

theorem IsChain.operand (h : IsChain s u n is) : IsOperand s u n is where
  head := h.head
  noAssign := h.noAssign
  reads {rest} hboundary hpoint := by
    have hchain := h.reads (v := []) hboundary (.nil (hboundary.noSuffix hpoint))
    rw [List.append_nil] at hchain
    refine .inline rfl (.mono (.seq (u := []) (.manyNone (h.noSign rest)) (.phrase rfl hchain)) ?_)
    rintro phs ⟨xs, ys, rfl, rfl, sp, parts, rfl, ph, zs, ws, rfl, hchained, rfl⟩
    rw [List.append_nil] at *
    exact .value rfl hchained.stands

/-- A line of operators in front of what may come behind an expression. -/
theorem ReadsExpr.of_binary {P : List (Phrase Rule) → Prop} (hrest : Ends rest)
    (hassign : Fails (.rule .assignment) (u ++ rest))
    (h : Reads Rule.binary.expression u rest P)
    (hP : ∀ sp t phs, P phs → s.Stands ⟨.binary, sp, t, phs⟩ n is) : ReadsExpr s u rest n is := by
  have hternary : Reads Rule.ternary.expression (u ++ []) rest _ :=
    .seq (.phrase rfl h) (.optNone (hrest.fails (by decide)))
  rw [List.append_nil] at hternary
  refine .inline rfl (.altRight hassign (.mono (.phrase rfl hternary) ?_))
  rintro phs ⟨sp, parts, rfl, xs, ys, rfl, ⟨sp', parts', rfl, hparts⟩, rfl⟩
  exact ⟨.ternary, sp, "", _, by decide, rfl, .ternary (hP sp' "" parts' hparts)⟩

theorem Ends.paren (u : List Char) : Ends (')' :: u) := .mark (by decide) u

theorem Ends.noPoint (h : Ends rest) : NoPoint rest := by
  rintro u rfl
  cases h with
  | mark h => revert h; decide

theorem IsOperand.expr (h : IsOperand s u n is) : IsExpr s u n is where
  head := h.head
  reads {rest} hrest := by
    have hboundary := Boundary.ends hrest
    have hbinary : Reads Rule.binary.expression (u ++ []) rest _ :=
      .seq (h.reads hboundary hrest.noPoint) (.manyNone (hrest.fails (by decide)))
    rw [List.append_nil] at hbinary
    refine .of_binary hrest (h.noAssign hboundary) hbinary ?_
    rintro sp t phs ⟨xs, ys, rfl, hxs, rfl⟩
    rw [List.append_nil]
    exact .single hxs

/-! ### Signs -/

theorem Reads.notOp (h : ∀ v, rest ≠ '=' :: v) :
    Reads (.rule .signOp) ['!'] rest fun phs => ∃ sp, phs = [⟨.notOp, sp, "!", []⟩] := by
  have hno : NoLexeme (lit "=") rest := .text fun ⟨v, hv⟩ => h v hv.symm
  exact .inline rfl (.altLeft (.token rfl (by decide)
    (.seq (u := ['!']) (v := []) (.text ['!'] rest) (.refuse hno))))

theorem Reads.negOp (h : ∀ d v, rest = d :: v → d.isDigit = false) :
    Reads (.rule .signOp) ['-'] rest fun phs => ∃ sp, phs = [⟨.negOp, sp, "-", []⟩] := by
  have hno : NoLexeme Rule.digit rest := .char h
  exact .inline rfl (.altRight (.first (by decide) (by decide) rest) (.token rfl (by decide)
    (.seq (u := ['-']) (v := []) (.text ['-'] rest) (.refuse hno))))

section Signs

variable {sp : Span}

theorem IsOperand.not (h : IsOperand s u n is) (hne : ∀ v, u ≠ '=' :: v) :
    IsOperand s ('!' :: u) ⟨sp, .call n "!" [] none⟩ is where
  head := ⟨'!', u, rfl, by decide⟩
  noAssign _ := .first (by decide) (by decide) _
  reads {rest} hboundary hpoint := by
    have hsign : ∀ v, u ++ rest ≠ '=' :: v := by
      obtain ⟨c, es, rfl, -⟩ := h.head
      intro v heq
      cases heq
      exact hne es rfl
    have hoperand : Reads Rule.operand.expression u rest _ := fun pos => by
      have := h.reads hboundary hpoint pos
      rwa [Language.take_inline rfl] at this
    refine .inline rfl (.mono (.manyCons (by decide) (.notOp hsign) hoperand) ?_)
    rintro phs ⟨xs, ys, rfl, ⟨sp', rfl⟩, hys⟩
    exact hys.not

theorem IsOperand.neg (h : IsOperand s u n is) (hne : ∀ d v, u = d :: v → d.isDigit = false) :
    IsOperand s ('-' :: u) ⟨sp, .call n "-@" [] none⟩ is where
  head := ⟨'-', u, rfl, by decide⟩
  noAssign _ := .first (by decide) (by decide) _
  reads {rest} hboundary hpoint := by
    have hsign : ∀ d v, u ++ rest = d :: v → d.isDigit = false := by
      obtain ⟨c, es, rfl, -⟩ := h.head
      intro d v heq
      cases heq
      exact hne c es rfl
    have hoperand : Reads Rule.operand.expression u rest _ := fun pos => by
      have := h.reads hboundary hpoint pos
      rwa [Language.take_inline rfl] at this
    refine .inline rfl (.mono (.manyCons (by decide) (.negOp hsign) hoperand) ?_)
    rintro phs ⟨xs, ys, rfl, ⟨sp', rfl⟩, hys⟩
    exact hys.neg

end Signs

end Quasiquote
