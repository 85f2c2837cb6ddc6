import Quasiquote.Proofs.Program.Literals

namespace Quasiquote

/-!
# String literals in a text

A text that is written as a literal is read back wherever a literal may start, whatever
comes behind it.  Inside the literal every quote and every backslash of the text stands
behind a backslash of its own, so the closing quote is the first one that no backslash
takes; and the rule of literals skips no blanks, so spaces and marks of comments are
characters like all others.

* `Phrase.Within`, `Covers` — a phrase at some depth, and a match that holds one whole;
* `Rule.covers_of_take` — what any rule takes at a literal;
* `Literal.phrase`, `Literal.take_string`, `Literal.take_primary` — the literal as a phrase;
* `Literal.take_isSome` — where values are read, a literal is read;
* `Literal.parse_lines` — a program of literals;
* `Literal.quote_faithful` — what was written is read, and nothing else.
-/

open Peg (lit seqs alts)

/-! ### Phrases at some depth -/

/-- A phrase is one of some phrases or stands inside one of them. -/
inductive Phrase.Within {ρ : Type} (ph : Phrase ρ) : List (Phrase ρ) → Prop
  | here {phs : List (Phrase ρ)} (h : ph ∈ phs) : Within ph phs
  | inside {phs : List (Phrase ρ)} {outer : Phrase ρ} (h : outer ∈ phs)
    (hparts : Within ph outer.parts) : Within ph phs

theorem Phrase.Within.mono {ρ : Type} {ph : Phrase ρ} {phs phs' : List (Phrase ρ)}
    (h : ph.Within phs) (hsub : phs ⊆ phs') : ph.Within phs' := by
  cases h with
  | here h => exact .here (hsub h)
  | inside h hparts => exact .inside (hsub h) hparts

/-- What was taken holds the phrase `ph` and does not end before `q`. -/
def Covers (ph : Phrase Rule) (q : Place) (phs : List (Phrase Rule)) (q' : Place) : Prop :=
  ph.Within phs ∧ q.Reaches q'

namespace Covers

variable {ph : Phrase Rule} {q q₁ q₂ : Place} {xs ys : List (Phrase Rule)}

theorem before (h : Covers ph q xs q₁) (hreach : q₁.Reaches q₂) : Covers ph q (xs ++ ys) q₂ :=
  ⟨h.1.mono (List.subset_append_left xs ys), h.2.trans hreach⟩

theorem behind (h : Covers ph q ys q₁) : Covers ph q (xs ++ ys) q₁ :=
  ⟨h.1.mono (List.subset_append_right xs ys), h.2⟩

theorem phrase (h : Covers ph q xs q₁) (r : Rule) (s : Span) (t : String) :
    Covers ph q [⟨r, s, t, xs⟩] q₁ := ⟨.inside List.mem_cons_self h.1, h.2⟩

end Covers

variable {c : Context} {r : Rule}

/-! ### Rules at a quote -/

/-- Rules with parts take a quote only by a rule that they try first. -/
theorem Rule.takesFirst_quote_of_parts (h : r.mode = .phrase ∨ r.mode = .inline) :
    r.expression.takesFirst (fun _ _ => false) '"' = false := by
  revert h
  cases r <;> decide

/-- Of the rules without blanks only that of literals starts with a quote. -/
theorem Rule.takesFirst_quote_of_token (hphrase : r.mode ≠ .phrase) (hinline : r.mode ≠ .inline)
    (hstring : r ≠ .string) : Rule.takesFirst 9 r '"' = false := by
  revert hphrase hinline hstring
  cases r <;> decide

/-- Whatever rule is tried at a literal outside of a token, it takes nothing, or the whole
    literal and perhaps more. -/
theorem Rule.covers_of_take {u : List Char} {pos : Nat} {ph : Phrase Rule} {q q' : Place}
    {xs : List (Phrase Rule)} (hc : c.inToken = false)
    (hliteral : language.take c (.rule .string) ⟨pos, '"' :: u⟩ = some ([ph], q))
    (h : language.take c (.rule r) ⟨pos, '"' :: u⟩ = some (xs, q')) (hlt : pos < q'.pos) :
    Covers ph q xs q' := by
  -- The rules that a rule tries before it takes a character have lower ranks.
  induction hrank : r.rank using Nat.strong_induction_on generalizing r xs q' with
  | h n ih =>
    have hdepth : r.expression.depth language.nesting Rule.empty Rule.rank < n := by
      rw [← hrank]
      exact Rule.bounded.rank_rule r
    have hparts {xs : List (Phrase Rule)} {q' : Place} (hr : r.mode = .phrase ∨ r.mode = .inline)
        (h : language.take c r.expression ⟨pos, '"' :: u⟩ = some (xs, q')) (hlt : pos < q'.pos) :
        Covers ph q xs q' :=
      holds_of_rules Covers.before Covers.behind (fun _ _ => false)
        (Rule.takesFirst_quote_of_parts hr) (Nat.le_refl _) (by decide)
        (fun hle _ h hlt => ih _ (Nat.lt_of_le_of_lt hle hdepth) h hlt rfl) h hlt
    by_cases hphrase : r.mode = .phrase
    · rw [Language.take_phrase_outside hc hphrase, Option.map_eq_some_iff] at h
      obtain ⟨⟨parts, q₁⟩, htake, hq⟩ := h
      cases hq
      exact (hparts (.inl hphrase) htake hlt).phrase r _ ""
    by_cases hinline : r.mode = .inline
    · rw [Language.take_inline_outside hc hinline] at h
      exact hparts (.inr hinline) h hlt
    by_cases hstring : r = .string
    · subst hstring
      rw [hliteral] at h
      cases h
      exact ⟨.here List.mem_cons_self, .refl q⟩
    · have hfirst := Rule.takesFirst_of_take 9 (by decide) h hlt
      rw [Rule.takesFirst_quote_of_token hphrase hinline hstring] at hfirst
      cases hfirst

/-- The rules by which values are read, from simple expressions outwards. -/
def Rule.values : List Rule := [.primary, .chain, .operand, .binary, .ternary, .expr]

namespace Literal

/-! ### The literal as a phrase -/

theorem toList_quote (s : String) : (quote s).toList = '"' :: (escape s.toList ++ ['"']) :=
  String.toList_ofList

theorem length_quote (s : String) :
    Utf8.length (quote s).toList = 1 + Utf8.length (escape s.toList) + 1 := by
  rw [toList_quote, Utf8.length_cons, Utf8.length_append, ← Nat.add_assoc]
  rfl

/-- The phrase of a literal behind `pos` bytes: from quote to quote, with the escaped text
    inside. -/
def phrase (pos : Nat) (s : String) : Phrase Rule :=
  let inside := escape s.toList
  ⟨.string, ⟨pos, pos + Utf8.length (quote s).toList⟩, "",
    [⟨.stringInner, ⟨pos + 1, pos + 1 + Utf8.length inside⟩, String.ofList inside, []⟩]⟩

/-- What stands between the quotes is read back as the text. -/
theorem unescape_inside (s : String) :
    String.ofList (unescape (String.ofList (escape s.toList)).toList) = s := by
  rw [String.toList_ofList, unescape_escape, String.ofList_toList]

/-- The phrase of a literal stands for the text. -/
theorem node_phrase (env : Reading) (pos : Nat) (s : String) :
    env.node (phrase pos s) = pure ⟨env.place (phrase pos s).span, .str s⟩ := by
  have hnode : env.node (phrase pos s) = pure ⟨env.place (phrase pos s).span,
      .str (String.ofList (unescape (String.ofList (escape s.toList)).toList))⟩ := rfl
  rw [hnode, unescape_inside]

variable {s : String} {pos : Nat} {rest : List Char}

theorem next_quote (c : Context) (s : String) (pos : Nat) (rest : List Char) :
    language.next c ⟨pos, (quote s).toList ++ rest⟩ = ⟨pos, (quote s).toList ++ rest⟩ := by
  rw [toList_quote]
  exact next_of_solid (by decide)

/-- What cannot start with a quote fails at a literal. -/
theorem take_eq_none {e : Peg Rule} (he : e.avoids '"' = true) :
    language.take c e ⟨pos, (quote s).toList ++ rest⟩ = none := by
  rw [toList_quote]
  exact take_of_avoids (by decide) he c pos _

/-- Where no blanks are skipped, a quote, the escaped text and a quote are taken. -/
theorem take_quoted (s : String) (pos : Nat) (rest : List Char) :
    language.take .tight Rule.string.expression ⟨pos, (quote s).toList ++ rest⟩ =
      some ((phrase pos s).parts, ⟨pos + Utf8.length (quote s).toList, rest⟩) := by
  have hopen : language.take .tight (lit "\"") ⟨pos, (quote s).toList ++ rest⟩ =
      some ([], ⟨pos + 1, escape s.toList ++ '"' :: rest⟩) := by
    rw [toList_quote, List.cons_append, List.append_assoc]
    rfl
  have hinner : language.take .tight (.rule .stringInner)
      ⟨pos + 1, escape s.toList ++ '"' :: rest⟩ =
        some ((phrase pos s).parts, ⟨pos + 1 + Utf8.length (escape s.toList), '"' :: rest⟩) := by
    rw [Language.take_token_of_tight rfl, Lexeme.stringInner s.toList rest (pos + 1),
      Option.map_some, Place.textTo_eq rfl rfl]
    rfl
  have hclose : language.take .tight (lit "\"")
      ⟨pos + 1 + Utf8.length (escape s.toList), '"' :: rest⟩ =
        some ([], ⟨pos + Utf8.length (quote s).toList, rest⟩) := by
    rw [length_quote, ← Nat.add_assoc, ← Nat.add_assoc]
    rfl
  refine Grammar.take_seq_eq_some.2 ⟨[], _, _, hopen, ?_, rfl⟩
  exact Grammar.take_seq_eq_some.2 ⟨_, _, [], hinner, hclose, (List.append_nil _).symm⟩

/-- The rule of literals takes the literal from its first quote to its last. -/
theorem take_string (hc : c.inToken = false) (s : String) (pos : Nat) (rest : List Char) :
    language.take c (.rule .string) ⟨pos, (quote s).toList ++ rest⟩ =
      some ([phrase pos s], ⟨pos + Utf8.length (quote s).toList, rest⟩) := by
  rw [Language.take_tight_outside hc rfl, take_quoted]
  rfl

/-- No alternative before that of literals takes the first quote. -/
theorem take_primary (hc : c.inToken = false) (s : String) (pos : Nat) (rest : List Char) :
    language.take c (.rule .primary) ⟨pos, (quote s).toList ++ rest⟩ =
      some ([phrase pos s], ⟨pos + Utf8.length (quote s).toList, rest⟩) := by
  have hrules : Rule.primary.expression = alts (primaryRules.map .rule) := rfl
  rw [Language.take_inline_outside hc rfl, hrules]
  simp only [primaryRules, List.map_cons, take_alts_cons]
  rw [take_eq_none (e := .rule .float) (by decide),
    take_eq_none (e := .rule .integer) (by decide), take_string hc]
  rfl

/-! ### Literals among values -/

/-- No rule takes a part of a literal only. -/
theorem covers_of_take (hc : c.inToken = false) {phs : List (Phrase Rule)} {q : Place}
    (h : language.take c (.rule r) ⟨pos, (quote s).toList ++ rest⟩ = some (phs, q))
    (hlt : pos < q.pos) :
    Covers (phrase pos s) ⟨pos + Utf8.length (quote s).toList, rest⟩ phs q := by
  have hplace : (⟨pos, (quote s).toList ++ rest⟩ : Place) =
      ⟨pos, '"' :: (escape s.toList ++ ['"'] ++ rest)⟩ := by rw [toList_quote, List.cons_append]
  have hliteral := take_string hc s pos rest
  rw [hplace] at h hliteral
  exact Rule.covers_of_take hc hliteral h hlt

/-- Where values are read, a literal is read. -/
theorem take_isSome (hc : c.inToken = false) (s : String) (pos : Nat) (rest : List Char) :
    ∀ r ∈ Rule.values, (language.take c (.rule r) ⟨pos, (quote s).toList ++ rest⟩).isSome := by
  have hprimary : (language.take c (.rule .primary) ⟨pos, (quote s).toList ++ rest⟩).isSome := by
    rw [take_primary hc]
    rfl
  have hchain : (language.take c (.rule .chain) ⟨pos, (quote s).toList ++ rest⟩).isSome :=
    Language.take_rule_isSome (.inl rfl)
      (Grammar.take_seq_isSome hprimary (Grammar.take_many_isSome c _))
  have hoperand : (language.take c (.rule .operand) ⟨pos, (quote s).toList ++ rest⟩).isSome := by
    -- There is no sign in front, and the literal stays where it is.
    have hsigns : language.take c (.many (.rule .signOp)) ⟨pos, (quote s).toList ++ rest⟩ =
        some ([], ⟨pos, (quote s).toList ++ rest⟩) :=
      Grammar.take_many_nil (take_eq_none (by decide))
    refine Language.take_rule_isSome (.inr rfl) ?_
    show (language.take c (.seq (.many (.rule .signOp)) (.rule .chain)) _).isSome
    rw [Grammar.take_seq, hsigns, Option.bind_some, next_quote, Option.isSome_map]
    exact hchain
  have hbinary : (language.take c (.rule .binary) ⟨pos, (quote s).toList ++ rest⟩).isSome :=
    Language.take_rule_isSome (.inl rfl)
      (Grammar.take_seq_isSome hoperand (Grammar.take_many_isSome c _))
  have hternary : (language.take c (.rule .ternary) ⟨pos, (quote s).toList ++ rest⟩).isSome :=
    Language.take_rule_isSome (.inl rfl)
      (Grammar.take_seq_isSome hbinary (Grammar.take_opt_isSome c _))
  have hexpr : (language.take c (.rule .expr) ⟨pos, (quote s).toList ++ rest⟩).isSome := by
    refine Language.take_rule_isSome (.inr rfl) ?_
    show (language.take c (.alt (.rule .assignment) (.rule .ternary)) _).isSome
    rw [Grammar.take_alt, Option.isSome_or, hternary, Bool.or_true]
  simp only [Rule.values, List.forall_mem_cons, List.not_mem_nil, false_imp_iff, implies_true,
    and_true]
  exact ⟨hprimary, hchain, hoperand, hbinary, hternary, hexpr⟩

/-! ### Texts of literals -/

theorem items_literals {env : Reading} (supply : Reading.Supply env) (xs : List String) :
    Items supply (xs.flatMap fun x => '\n' :: (quote x).toList)
      (xs.map fun x => ⟨Span.zero, .str x⟩) [] := by
  induction xs with
  | nil => exact .nil
  | cons x xs ih =>
    have hline : IsSep ['\n'] := ⟨'\n', 0, rfl, .inl rfl⟩
    have hliteral : IsExpr supply (quote x).toList ⟨Span.zero, .str x⟩ [] :=
      (IsSimple.str x).chain.operand.expr
    rw [List.flatMap_cons, List.map_cons, List.cons_append, ← List.singleton_append]
    exact .cons hline hliteral ih

theorem toList_lines (x : String) (xs : List String) :
    ("\n".intercalate ((x :: xs).map quote)).toList =
      (quote x).toList ++ xs.flatMap fun x => '\n' :: (quote x).toList := by
  have hline : "\n".toList = ['\n'] := rfl
  rw [String.toList_intercalate, hline]
  induction xs generalizing x with
  | nil => simp
  | cons y ys ih =>
    have hys := ih y
    simp only [List.map_cons, List.flatMap_cons] at hys ⊢
    rw [List.intercalate_cons_cons, hys, List.append_assoc, List.singleton_append,
      List.cons_append]

/-- Literals on lines of their own are a program that consists of their texts. -/
theorem parse_lines (source : String) (anchor : Option Span) (x : String) (xs : List String) :
    ∃ n, Program.parse source ("\n".intercalate ((x :: xs).map quote)) anchor = .ok n ∧
      n.unplaced =
        (⟨Span.zero, .body ((x :: xs).map fun x => ⟨Span.zero, .str x⟩)⟩ : Node).unplaced :=
  parse_statements (toList_lines x xs) (IsSimple.str x).chain.operand.expr (items_literals _ xs)

/-! ### Literals anywhere -/

/-- Reading a literal.  Anywhere in a text, outside of a token and whatever comes behind it, the
    literal of `s` is read as a whole.  No blanks are skipped at its start.  With enough room the
    rule of literals and that of simple expressions take it up to its closing quote and leave its
    phrase; every rule for values takes it; and no rule at all takes a part of it only.  The phrase
    has one part, which holds what is written between the quotes; read back, that is `s`, and the
    phrase stands for `s`.  So a program of literals, each on a line of its own, is read as their
    texts. -/
theorem quote_faithful (hc : c.inToken = false) (s : String) (pos : Nat) (rest : List Char) :
    let p : Place := ⟨pos, (quote s).toList ++ rest⟩
    let q : Place := ⟨pos + Utf8.length (quote s).toList, rest⟩
    language.next c p = p ∧
    (∀ r fuel f, language.room (.rule r) p < fuel →
      let taken := (language.run fuel c (.rule r) p f).taken
      (r = .string ∨ r = .primary → taken = some ([phrase pos s], q)) ∧
      (r ∈ Rule.values → ∃ phs q', taken = some (phs, q') ∧ Covers (phrase pos s) q phs q') ∧
      ∀ phs q', taken = some (phs, q') → q' = p ∨ Covers (phrase pos s) q phs q') ∧
    (∃ inner, (phrase pos s).parts = [inner] ∧
      inner.rule = .stringInner ∧ inner.span = ⟨p.pos + 1, q.pos - 1⟩ ∧
      '"' :: (inner.text.toList ++ ['"']) = (quote s).toList ∧
      String.ofList (unescape inner.text.toList) = s) ∧
    (∀ (env : Reading) (scopes : Scopes Node), (env.node (phrase pos s)).run scopes =
      (.ok ⟨env.place ⟨p.pos, q.pos⟩, .str s⟩, scopes)) ∧
    ∀ (source : String) (anchor : Option Span) (more : List String),
      ∃ n, Program.parse source ("\n".intercalate ((s :: more).map quote)) anchor = .ok n ∧
        n.unplaced =
          (⟨Span.zero, .body ((s :: more).map fun x => ⟨Span.zero, .str x⟩)⟩ : Node).unplaced := by
  intro p q
  refine ⟨next_quote c s pos rest, fun r fuel f hroom => ?_,
    ⟨_, rfl, rfl, ?_, ?_, unescape_inside s⟩, fun env scopes => ?_, fun source anchor more =>
      parse_lines source anchor s more⟩
  · simp only [Grammar.run_taken_eq c f hroom]
    refine ⟨?_, fun hr => ?_, fun phs q' h => ?_⟩
    · rintro (rfl | rfl)
      · exact take_string hc s pos rest
      · exact take_primary hc s pos rest
    · obtain ⟨⟨phs, q'⟩, h⟩ := Option.isSome_iff_exists.1 (take_isSome hc s pos rest r hr)
      have hnonempty : ∀ r ∈ Rule.values, Rule.empty r = false := by decide
      have hlt := (Grammar.take_reaches h).2 (hnonempty r hr)
      exact ⟨phs, q', h, covers_of_take hc h hlt⟩
    · by_cases hlt : pos < q'.pos
      · exact .inr (covers_of_take hc h hlt)
      · exact .inl (eq_of_reaches (Grammar.take_reaches h).1 (Nat.le_of_not_lt hlt))
  · have hstop : q.pos - 1 = pos + 1 + Utf8.length (escape s.toList) := by
      simp only [q, length_quote]
      omega
    rw [hstop]
    rfl
  · rw [toList_quote]
    exact congrArg (fun u => '"' :: (u ++ ['"'])) String.toList_ofList
  · rw [node_phrase]
    rfl

/-- A text of characters with a meaning of their own, in front of a quote and a comment. -/
theorem quote_faithful_marks :
    let s := "\"\\\n\t\r\x00 #`é"
    let rest := ['"', '\\', '#', ' ']
    let p : Place := ⟨7, (quote s).toList ++ rest⟩
    ({} : Context).inToken = false ∧ language.room (.rule .primary) p < 32768 ∧
      (language.run 32768 {} (.rule .primary) p 0).taken = some ([phrase 7 s], ⟨24, rest⟩) := by
  intro s rest p
  have hroom : language.room (.rule .primary) p < 32768 := by decide +kernel
  have hlength : 7 + Utf8.length (quote s).toList = 24 := by decide +kernel
  obtain ⟨-, hrun, -⟩ := quote_faithful (c := {}) rfl s 7 rest
  have htaken := (hrun .primary 32768 0 hroom).1 (.inr rfl)
  rw [hlength] at htaken
  exact ⟨rfl, hroom, htaken⟩

end Literal

end Quasiquote
