import Quasiquote.Proofs.Grammar.Matching

namespace Quasiquote

/-!
# Matching in the language

No rule of the language reaches itself without taking a character, so what is
taken has one equation for every kind of expression.  Blanks are skipped between
the parts of a phrase and never inside a token.

* `Blank.skip_skip`, `Blank.skip_of_solid` — what skipping blanks does;
* `Rule.bounded` — the ranks of the rules;
* `Language.take_phrase`, `Language.take_inline`, `Language.take_token`, … — a rule in
  terms of its expression, for each way of leaving phrases;
* `Language.read_eq_ok_iff` — a text is read by taking the first rule.
-/

namespace Blank

theorem skip_reaches (pos : Nat) (cs : List Char) : Place.Reaches ⟨pos, cs⟩ (skip pos cs) := by
  refine skip.induct (fun pos cs => Place.Reaches ⟨pos, cs⟩ (skip pos cs))
    (fun pos cs => Place.Reaches ⟨pos, cs⟩ (skipComment pos cs))
    ?_ ?_ ?_ ?_ ?_ ?_ ?_ ?_ ?_ ?_ ?_ ?_ pos cs
  · intro pos cs ih
    rw [skip]
    exact .trans ⟨[' '], rfl, rfl⟩ ih
  · intro pos cs ih
    rw [skip]
    exact .trans ⟨['\t'], rfl, rfl⟩ ih
  · intro pos cs ih
    rw [skip]
    exact .trans ⟨['\r'], rfl, rfl⟩ ih
  · intro pos cs ih
    rw [skip]
    exact .trans ⟨['\\', '\n'], rfl, rfl⟩ ih
  · intro pos cs ih
    rw [skip]
    exact .trans ⟨['\\', '\r', '\n'], rfl, rfl⟩ ih
  · intro pos cs hne ih
    rw [skip]
    · exact .trans ⟨['\\', '\r'], rfl, rfl⟩ ih
    · exact hne
  · intro pos cs ih
    rw [skip]
    exact .trans ⟨['#'], rfl, rfl⟩ ih
  · intro pos cs h₁ h₂ h₃ h₄ h₅ h₆ h₇
    rw [skip] <;> assumption
  · intro pos
    rw [skipComment]
  · intro pos cs
    rw [skipComment]
  · intro pos cs ih
    rw [skipComment]
    exact .trans ⟨['\r'], rfl, rfl⟩ ih
  · intro pos c cs h₁ h₂ ih
    rw [skipComment]
    · exact .trans ⟨[c], rfl, rfl⟩ ih
    · exact h₁
    · exact h₂

/-- Behind blanks there are no more blanks. -/
theorem skip_skip (pos : Nat) (cs : List Char) :
    skip (skip pos cs).pos (skip pos cs).rest = skip pos cs := by
  refine skip.induct (fun pos cs => skip (skip pos cs).pos (skip pos cs).rest = skip pos cs)
    (fun pos cs => skip (skipComment pos cs).pos (skipComment pos cs).rest = skipComment pos cs)
    ?_ ?_ ?_ ?_ ?_ ?_ ?_ ?_ ?_ ?_ ?_ ?_ pos cs
  · intro pos cs ih
    rw [skip]
    exact ih
  · intro pos cs ih
    rw [skip]
    exact ih
  · intro pos cs ih
    rw [skip]
    exact ih
  · intro pos cs ih
    rw [skip]
    exact ih
  · intro pos cs ih
    rw [skip]
    exact ih
  · intro pos cs hne ih
    rw [skip]
    · exact ih
    · exact hne
  · intro pos cs ih
    rw [skip]
    exact ih
  · intro pos cs h₁ h₂ h₃ h₄ h₅ h₆ h₇
    have hsame : skip pos cs = ⟨pos, cs⟩ := by rw [skip] <;> assumption
    rw [hsame]
    exact hsame
  · intro pos
    rfl
  · intro pos cs
    rfl
  · intro pos cs ih
    rw [skipComment]
    exact ih
  · intro pos c cs h₁ h₂ ih
    rw [skipComment]
    · exact ih
    · exact h₁
    · exact h₂

/-- Whether a character cannot start blanks. -/
def solid (c : Char) : Bool := !(c == ' ' || c == '\t' || c == '\r' || c == '\\' || c == '#')

/-- There are no blanks in front of a solid character. -/
theorem skip_of_solid {c : Char} (h : solid c = true) (pos : Nat) (cs : List Char) :
    skip pos (c :: cs) = ⟨pos, c :: cs⟩ := by
  simp only [solid, Bool.not_eq_true', Bool.or_eq_false_iff, beq_eq_false_iff_ne] at h
  rw [skip] <;> grind

@[simp] theorem skip_nil (pos : Nat) : skip pos [] = ⟨pos, []⟩ := rfl

@[simp] theorem skip_space (pos : Nat) (cs : List Char) :
    skip pos (' ' :: cs) = skip (pos + 1) cs := by rw [skip]

theorem skip_spaces (n pos : Nat) (cs : List Char) :
    skip pos (List.replicate n ' ' ++ cs) = skip (pos + n) cs := by
  induction n generalizing pos with
  | zero => rfl
  | succ n ih => rw [List.replicate_succ, List.cons_append, skip_space, ih, Nat.add_assoc,
      Nat.add_comm 1 n]

end Blank

namespace Rule

/-- Whether a rule may match without taking a character. -/
def empty : Rule → Bool
  | .program | .newlines | .body | .commandStop | .stringInner | .endOfText => true
  | _ => false

/-- The levels that a rule may nest before it takes a character. -/
def rank : Rule → Nat
  | .program => 80
  | .body => 74
  | .callArg | .commandArgs => 68
  | .expr => 66
  | .ternary => 64
  | .binary => 62
  | .operand => 60
  | .chain => 58
  | .primary => 56
  | .commandStop | .assignment | .functionCall | .command | .param => 32
  | .methodName | .name | .functionName => 24
  | .infixOp | .operatorName | .reserved => 18
  | .anyBlock => 16
  | .kwIf | .kwElsif | .kwElse | .kwEnd | .kwThen | .kwClass | .kwDef | .kwDo | .kwQuote
  | .kwTrue | .kwFalse | .kwNil | .kwSelf | .endOfText | .notOp | .negOp | .identChar
  | .constant | .field | .separator | .newlines => 6
  | _ => 12

instance bounded : language.Bounded where
  empty := empty
  rank := rank
  nesting_pos := by decide
  reaches_skip p := Blank.skip_reaches p.pos p.rest
  empty_rule r := by cases r <;> decide
  rank_rule r := by cases r <;> decide

end Rule

namespace Context

/-- Inside a token. -/
def token : Context := { spaced := false, inToken := true }

/-- Inside a phrase that is read without blanks. -/
def tight : Context := { spaced := false }

end Context

namespace Language

variable {p q : Place} {r : Rule}

@[simp] theorem next_spaced (p : Place) : language.next {} p = Blank.skip p.pos p.rest := rfl

@[simp] theorem next_token (p : Place) : language.next .token p = p := rfl

@[simp] theorem next_tight (p : Place) : language.next .tight p = p := rfl

/-- A rule that leaves a phrase with the phrases of its parts, outside of a token. -/
theorem take_phrase_outside {c : Context} (hc : c.inToken = false) (h : r.mode = .phrase)
    (p : Place) : language.take c (.rule r) p = (language.take c r.expression p).map fun m =>
      ([⟨r, ⟨p.pos, m.2.pos⟩, "", m.1⟩], m.2) := by
  have hmode : language.mode r = .phrase := h
  rw [Grammar.take_rule]
  simp only [Grammar.leave, hmode, hc]
  rfl

/-- A rule that leaves a phrase with the phrases of its parts. -/
theorem take_phrase (h : r.mode = .phrase) (p : Place) :
    language.take {} (.rule r) p = (language.take {} r.expression p).map fun m =>
      ([⟨r, ⟨p.pos, m.2.pos⟩, "", m.1⟩], m.2) := take_phrase_outside rfl h p

/-- A rule that leaves only the phrases of its parts, outside of a token. -/
theorem take_inline_outside {c : Context} (hc : c.inToken = false) (h : r.mode = .inline)
    (p : Place) : language.take c (.rule r) p = language.take c r.expression p := by
  have hmode : language.mode r = .inline := h
  rw [Grammar.take_rule]
  simp only [Grammar.leave, hmode, hc]
  show (language.take c r.expression p).map (fun m => (m.1, m.2)) = _
  cases language.take c r.expression p <;> rfl

/-- A rule that leaves only the phrases of its parts. -/
theorem take_inline (h : r.mode = .inline) (p : Place) :
    language.take {} (.rule r) p = language.take {} r.expression p := take_inline_outside rfl h p

/-- A rule with parts matches if its expression does. -/
theorem take_rule_isSome {c : Context} (h : r.mode = .phrase ∨ r.mode = .inline)
    (hsome : (language.take c r.expression p).isSome) :
    (language.take c (.rule r) p).isSome := by
  have henter : c.enter (language.mode r) = c := by
    show c.enter r.mode = c
    rcases h with h | h <;> rw [h] <;> rfl
  rw [Grammar.take_rule, Option.isSome_map, henter]
  exact hsome

/-- A rule that leaves a phrase with its text. -/
theorem take_token (h : r.mode = .token) (p : Place) :
    language.take {} (.rule r) p = (language.take .token r.expression p).map fun m =>
      ([⟨r, ⟨p.pos, m.2.pos⟩, p.textTo m.2, []⟩], m.2) := by
  have hmode : language.mode r = .token := h
  rw [Grammar.take_rule]
  simp only [Grammar.leave, hmode]
  rfl

/-- A rule that leaves nothing. -/
theorem take_keyword (h : r.mode = .keyword) (p : Place) :
    language.take {} (.rule r) p = (language.take .token r.expression p).map fun m =>
      ([], m.2) := by
  have hmode : language.mode r = .keyword := h
  rw [Grammar.take_rule]
  simp only [Grammar.leave, hmode]
  rfl

/-- A rule that reads without blanks and leaves a phrase with its parts, outside of a token. -/
theorem take_tight_outside {c : Context} (hc : c.inToken = false) (h : r.mode = .tight)
    (p : Place) : language.take c (.rule r) p =
      (language.take .tight r.expression p).map fun m =>
        ([⟨r, ⟨p.pos, m.2.pos⟩, "", m.1⟩], m.2) := by
  have hmode : language.mode r = .tight := h
  rw [Grammar.take_rule, hmode, ← Grammar.take_negated .tight _ _ c.negated]
  simp only [Grammar.leave, hmode, hc]
  rfl

/-- A rule that reads without blanks and leaves a phrase with its parts. -/
theorem take_tight (h : r.mode = .tight) (p : Place) :
    language.take {} (.rule r) p = (language.take .tight r.expression p).map fun m =>
      ([⟨r, ⟨p.pos, m.2.pos⟩, "", m.1⟩], m.2) := take_tight_outside rfl h p

/-- A token inside a phrase that is read without blanks. -/
theorem take_token_of_tight (h : r.mode = .token) (p : Place) :
    language.take .tight (.rule r) p = (language.take .token r.expression p).map fun m =>
      ([⟨r, ⟨p.pos, m.2.pos⟩, p.textTo m.2, []⟩], m.2) := by
  have hmode : language.mode r = .token := h
  rw [Grammar.take_rule]
  simp only [Grammar.leave, hmode]
  rfl

/-- A rule inside a token leaves nothing. -/
theorem take_of_token (h : r.mode ≠ .tight) (p : Place) :
    language.take .token (.rule r) p = (language.take .token r.expression p).map fun m =>
      ([], m.2) := by
  have henter : Context.token.enter (language.mode r) = .token := by
    show Context.token.enter r.mode = .token
    cases hmode : r.mode <;> first | rfl | exact absurd hmode h
  rw [Grammar.take_rule, henter]
  rfl

/-- Reading a text is taking the first rule from its start. -/
theorem read_eq_ok_iff {text : String} {ph : Phrase Rule} :
    language.read .program text = .ok ph ↔
      ∃ phs q, language.take {} (.rule .program) ⟨0, text.toList⟩ = some (ph :: phs, q) := by
  have hroom : language.room (.rule .program) ⟨0, text.toList⟩ <
      language.nesting * (text.toList.length + 1) := by
    show 80 + 1024 * text.toList.length < 1024 * (text.toList.length + 1)
    omega
  rw [← Grammar.run_taken_eq (g := language) {} 0 hroom]
  simp only [Grammar.read]
  rcases (language.run _ {} (.rule .program) ⟨0, text.toList⟩ 0).taken with
    _ | ⟨_ | ⟨ph', phs⟩, q⟩ <;> simp

end Language

end Quasiquote
