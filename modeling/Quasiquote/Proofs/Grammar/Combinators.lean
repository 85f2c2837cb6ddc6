import Quasiquote.Proofs.Grammar.Names

namespace Quasiquote

/-!
# Reading pieces of text

Between the parts of phrases blanks are skipped, so a match is described up to the
blanks before and behind it: an expression reads a piece of text in front of a
rest, or it fails there.

* `Reads`, `Fails` — an expression at a text, and `More` — the repetitions of an
  expression from a place on;
* `Reads.seq`, `Reads.opt`, `More.cons`, … — one rule for each kind of expression;
* `Reads.phrase`, `Reads.token`, … — one rule for each way of leaving phrases, and
  `Snug` — where no blanks are skipped;
* `holds_of_rules` — what is known of a match from the rules that are tried first;
* `Fails.first` — an expression fails before a character that it cannot take first.
-/

/-- Behind blanks, `e` takes `u` if `rest` comes next, and the phrases that it leaves
    satisfy `P`. -/
def Reads (e : Peg Rule) (u rest : List Char) (P : List (Phrase Rule) → Prop) : Prop :=
  ∀ pos, ∃ phs q pos', language.take {} e (Blank.skip pos (u ++ rest)) = some (phs, q) ∧
    Blank.skip q.pos q.rest = Blank.skip pos' rest ∧ P phs

/-- Behind blanks, `e` fails at the start of `u`. -/
def Fails (e : Peg Rule) (u : List Char) : Prop :=
  ∀ pos, language.take {} e (Blank.skip pos u) = none

/-- From a place before `u`, blanks aside, repetitions of `e` take `u` if `rest` comes
    next, and the phrases that they leave satisfy `P`. -/
def More (e : Peg Rule) (u rest : List Char) (P : List (Phrase Rule) → Prop) : Prop :=
  ∀ p pos, Blank.skip p.pos p.rest = Blank.skip pos (u ++ rest) →
    ∃ phs q pos', language.more {} e p = some (phs, q) ∧
      Blank.skip q.pos q.rest = Blank.skip pos' rest ∧ P phs

variable {a b e : Peg Rule} {u v rest : List Char} {P Q : List (Phrase Rule) → Prop} {r : Rule}

/-! ### Blanks -/

theorem Reads.mono (h : Reads e u rest P) (hPQ : ∀ phs, P phs → Q phs) : Reads e u rest Q :=
  fun pos => by
    obtain ⟨phs, q, pos', htake, hskip, hphs⟩ := h pos
    exact ⟨phs, q, pos', htake, hskip, hPQ phs hphs⟩

/-- Spaces in front of a text do not matter. -/
theorem Reads.space (h : Reads e u rest P) : Reads e (' ' :: u) rest P := fun pos => by
  rw [List.cons_append, Blank.skip_space]
  exact h (pos + 1)

theorem Reads.spaces (n : Nat) (h : Reads e u rest P) :
    Reads e (List.replicate n ' ' ++ u) rest P := fun pos => by
  rw [List.append_assoc, Blank.skip_spaces]
  exact h (pos + n)

theorem Fails.space (h : Fails e u) : Fails e (' ' :: u) := fun pos => by
  rw [Blank.skip_space]
  exact h (pos + 1)

theorem Fails.spaces (n : Nat) (h : Fails e u) : Fails e (List.replicate n ' ' ++ u) :=
  fun pos => by
    rw [Blank.skip_spaces]
    exact h (pos + n)

/-! ### Expressions that read -/

namespace Reads

theorem seq (ha : Reads a u (v ++ rest) P) (hb : Reads b v rest Q) :
    Reads (.seq a b) (u ++ v) rest fun phs => ∃ xs ys, phs = xs ++ ys ∧ P xs ∧ Q ys :=
  fun pos => by
    obtain ⟨xs, q, pos', htake, hskip, hxs⟩ := ha pos
    obtain ⟨ys, q', pos'', htake', hskip', hys⟩ := hb pos'
    refine ⟨xs ++ ys, q', pos'', ?_, hskip', xs, ys, rfl, hxs, hys⟩
    rw [Grammar.take_seq_eq_some]
    refine ⟨xs, q, ys, by rw [List.append_assoc]; exact htake, ?_, rfl⟩
    rw [Language.next_spaced, hskip]
    exact htake'

theorem altLeft (ha : Reads a u rest P) : Reads (.alt a b) u rest P := fun pos => by
  obtain ⟨xs, q, pos', htake, hskip, hxs⟩ := ha pos
  exact ⟨xs, q, pos', by rw [Grammar.take_alt, htake, Option.some_or], hskip, hxs⟩

theorem altRight (ha : Fails a (u ++ rest)) (hb : Reads b u rest P) :
    Reads (.alt a b) u rest P := fun pos => by
  obtain ⟨xs, q, pos', htake, hskip, hxs⟩ := hb pos
  exact ⟨xs, q, pos', by rw [Grammar.take_alt, ha pos, Option.none_or, htake], hskip, hxs⟩

theorem opt (ha : Reads a u rest P) : Reads (.opt a) u rest P := fun pos => by
  obtain ⟨xs, q, pos', htake, hskip, hxs⟩ := ha pos
  exact ⟨xs, q, pos', by rw [Grammar.take_opt, htake, Option.some_or], hskip, hxs⟩

theorem optNone (ha : Fails a rest) : Reads (.opt a) [] rest (· = []) := fun pos => by
  refine ⟨[], Blank.skip pos rest, pos, ?_, Blank.skip_skip pos rest, rfl⟩
  rw [Grammar.take_opt, List.nil_append, ha pos, Option.none_or]

theorem refuse (ha : Fails a rest) : Reads (.refuse a) [] rest (· = []) := fun pos => by
  refine ⟨[], Blank.skip pos rest, pos, ?_, Blank.skip_skip pos rest, rfl⟩
  rw [Grammar.take_refuse, List.nil_append, ha pos]
  rfl

theorem manyNone (ha : Fails a rest) : Reads (.many a) [] rest (· = []) := fun pos => by
  refine ⟨[], Blank.skip pos rest, pos, ?_, Blank.skip_skip pos rest, rfl⟩
  rw [List.nil_append, Grammar.take_many_nil (ha pos)]

/-- A repetition reads what one match and then further matches read. -/
theorem many (hne : a.mayBeEmpty Rule.empty = false) (ha : Reads a u (v ++ rest) P)
    (hmore : More a v rest Q) :
    Reads (.many a) (u ++ v) rest fun phs => ∃ xs ys, phs = xs ++ ys ∧ P xs ∧ Q ys :=
  fun pos => by
    obtain ⟨xs, q, pos', htake, hskip, hxs⟩ := ha pos
    obtain ⟨ys, q', pos'', htake', hskip', hys⟩ := hmore q pos' hskip
    refine ⟨xs ++ ys, q', pos'', ?_, hskip', xs, ys, rfl, hxs, hys⟩
    rw [List.append_assoc, Grammar.take_many_cons htake ((Grammar.take_reaches htake).2 hne),
      htake']
    rfl

theorem text {c : Char} (hc : Blank.solid c = true) (u rest : List Char) :
    Reads (.text (c :: u)) (c :: u) rest (· = []) := fun pos => by
  refine ⟨[], ⟨pos + Utf8.length (c :: u), rest⟩, pos + Utf8.length (c :: u), ?_, rfl, rfl⟩
  rw [List.cons_append, Blank.skip_of_solid hc, ← List.cons_append, Grammar.take_text,
    Place.skipText_append]
  rfl

theorem inline (hr : r.mode = .inline) (h : Reads r.expression u rest P) :
    Reads (.rule r) u rest P := fun pos => by
  rw [Language.take_inline hr]
  exact h pos

theorem phrase (hr : r.mode = .phrase) (h : Reads r.expression u rest P) :
    Reads (.rule r) u rest fun phs => ∃ s parts, phs = [⟨r, s, "", parts⟩] ∧ P parts :=
  fun pos => by
    obtain ⟨xs, q, pos', htake, hskip, hxs⟩ := h pos
    refine ⟨_, q, pos', ?_, hskip, ⟨(Blank.skip pos (u ++ rest)).pos, q.pos⟩, xs, rfl, hxs⟩
    rw [Language.take_phrase hr, htake]
    rfl

theorem token {c : Char} (hr : r.mode = .token) (hc : Blank.solid c = true)
    (h : Lexeme r.expression (c :: u) rest) :
    Reads (.rule r) (c :: u) rest fun phs =>
      ∃ s, phs = [⟨r, s, String.ofList (c :: u), []⟩] := fun pos => by
  refine ⟨_, ⟨pos + Utf8.length (c :: u), rest⟩, pos + Utf8.length (c :: u), ?_, rfl,
    ⟨pos, pos + Utf8.length (c :: u)⟩, rfl⟩
  rw [List.cons_append, Blank.skip_of_solid hc, Language.take_token hr, ← List.cons_append, h pos]
  simp only [Option.map_some]
  rw [Place.textTo_eq (u := c :: u) rfl rfl]

/-- A token with a given text. -/
theorem tokenText {x : String} (hr : r.mode = .token)
    (hsolid : x.toList.head?.any Blank.solid = true) (h : Lexeme r.expression x.toList rest) :
    Reads (.rule r) x.toList rest fun phs => ∃ s, phs = [⟨r, s, x, []⟩] := by
  cases hx : x.toList with
  | nil => rw [hx] at hsolid; cases hsolid
  | cons c u =>
    rw [hx] at hsolid h
    have htoken := token hr hsolid h
    rwa [← hx, String.ofList_toList, hx] at htoken

theorem keyword {c : Char} (hr : r.mode = .keyword) (hc : Blank.solid c = true)
    (h : Lexeme r.expression (c :: u) rest) : Reads (.rule r) (c :: u) rest (· = []) :=
  fun pos => by
    refine ⟨[], ⟨pos + Utf8.length (c :: u), rest⟩, pos + Utf8.length (c :: u), ?_, rfl, rfl⟩
    rw [List.cons_append, Blank.skip_of_solid hc, Language.take_keyword hr, ← List.cons_append,
      h pos]
    rfl

end Reads

/-! ### Phrases without blanks -/

/-- Where no blanks are skipped, `e` takes exactly `u` if `rest` comes behind it, and the
    phrases that it leaves satisfy `P`. -/
def Snug (e : Peg Rule) (u rest : List Char) (P : List (Phrase Rule) → Prop) : Prop :=
  ∀ pos, ∃ phs, language.take .tight e ⟨pos, u ++ rest⟩ =
    some (phs, ⟨pos + Utf8.length u, rest⟩) ∧ P phs

namespace Snug

theorem text (u rest : List Char) : Snug (.text u) u rest (· = []) := fun pos =>
  ⟨[], by rw [Grammar.take_text, Place.skipText_append]; rfl, rfl⟩

theorem seq (ha : Snug a u (v ++ rest) P) (hb : Snug b v rest Q) :
    Snug (.seq a b) (u ++ v) rest fun phs => ∃ xs ys, phs = xs ++ ys ∧ P xs ∧ Q ys :=
  fun pos => by
    obtain ⟨xs, htake, hxs⟩ := ha pos
    obtain ⟨ys, htake', hys⟩ := hb (pos + Utf8.length u)
    refine ⟨xs ++ ys, ?_, xs, ys, rfl, hxs, hys⟩
    rw [Grammar.take_seq_eq_some]
    refine ⟨xs, _, ys, by rw [List.append_assoc]; exact htake, ?_, rfl⟩
    rw [Language.next_tight, htake', Utf8.length_append, Nat.add_assoc]

theorem token (hr : r.mode = .token) (h : Lexeme r.expression u rest) :
    Snug (.rule r) u rest fun phs => ∃ s, phs = [⟨r, s, String.ofList u, []⟩] := fun pos => by
  refine ⟨_, ?_, ⟨pos, pos + Utf8.length u⟩, rfl⟩
  rw [Language.take_token_of_tight hr, h pos, Option.map_some, Place.textTo_eq rfl rfl]

end Snug

theorem Reads.tight {c : Char} (hr : r.mode = .tight) (hc : Blank.solid c = true)
    (h : Snug r.expression (c :: u) rest P) :
    Reads (.rule r) (c :: u) rest fun phs => ∃ s parts, phs = [⟨r, s, "", parts⟩] ∧ P parts :=
  fun pos => by
    obtain ⟨parts, htake, hparts⟩ := h pos
    refine ⟨_, ⟨pos + Utf8.length (c :: u), rest⟩, pos + Utf8.length (c :: u), ?_, rfl,
      ⟨pos, pos + Utf8.length (c :: u)⟩, parts, rfl, hparts⟩
    rw [List.cons_append, Blank.skip_of_solid hc, Language.take_tight hr, ← List.cons_append, htake]
    rfl

/-! ### Further repetitions -/

namespace More

theorem mono (h : More e u rest P) (hPQ : ∀ phs, P phs → Q phs) : More e u rest Q :=
  fun p pos hp => by
    obtain ⟨phs, q, pos', htake, hskip, hphs⟩ := h p pos hp
    exact ⟨phs, q, pos', htake, hskip, hPQ phs hphs⟩

theorem nil (h : Fails a rest) : More a [] rest (· = []) := fun p pos hp => by
  refine ⟨[], p, pos, Grammar.more_nil ?_, hp, rfl⟩
  rw [Language.next_spaced, hp]
  exact h pos

theorem cons (hne : a.mayBeEmpty Rule.empty = false) (ha : Reads a u (v ++ rest) P)
    (hmore : More a v rest Q) :
    More a (u ++ v) rest fun phs => ∃ xs ys, phs = xs ++ ys ∧ P xs ∧ Q ys :=
  fun p pos hp => by
    obtain ⟨xs, q, pos', htake, hskip, hxs⟩ := ha pos
    obtain ⟨ys, q', pos'', htake', hskip', hys⟩ := hmore q pos' hskip
    refine ⟨xs ++ ys, q', pos'', ?_, hskip', xs, ys, rfl, hxs, hys⟩
    have hnext : language.take {} a (language.next {} p) = some (xs, q) := by
      rw [Language.next_spaced, hp, List.append_assoc]
      exact htake
    have hlt : p.pos < q.pos := Nat.lt_of_le_of_lt (Grammar.reaches_next language {} p).pos_le
      ((Grammar.take_reaches hnext).2 hne)
    rw [Grammar.more_cons hnext hlt, htake']
    rfl

/-- From a place behind blanks, a repetition reads what further matches read. -/
theorem reads (hne : a.mayBeEmpty Rule.empty = false) (h : More a u rest P) :
    Reads (.many a) u rest P := fun pos => by
  obtain ⟨xs, q, pos', hmore, hskip, hxs⟩ := h (Blank.skip pos (u ++ rest)) pos
    (Blank.skip_skip pos (u ++ rest))
  rw [Grammar.more_eq, Language.next_spaced, Blank.skip_skip] at hmore
  cases htake : language.take {} a (Blank.skip pos (u ++ rest)) with
  | none =>
    rw [htake] at hmore
    cases hmore
    exact ⟨[], _, pos', Grammar.take_many_nil htake, hskip, hxs⟩
  | some m =>
    obtain ⟨ys, q'⟩ := m
    have hlt := (Grammar.take_reaches htake).2 hne
    rw [htake] at hmore
    refine ⟨xs, q, pos', ?_, hskip, hxs⟩
    rw [Grammar.take_many_cons htake hlt]
    simpa only [if_pos hlt] using hmore

end More

/-- One more repetition in front of what starts with repetitions. -/
theorem Reads.manyCons (hne : a.mayBeEmpty Rule.empty = false) (ha : Reads a v (u ++ rest) Q)
    (h : Reads (.seq (.many a) b) u rest P) :
    Reads (.seq (.many a) b) (v ++ u) rest fun phs =>
      ∃ xs ys, phs = xs ++ ys ∧ Q xs ∧ P ys := fun pos => by
  obtain ⟨xs, q, pos', htake, hskip, hxs⟩ := ha pos
  obtain ⟨ys, q', pos'', hrest, hskip', hys⟩ := h pos'
  obtain ⟨zs, q'', ws, hmany, hb, rfl⟩ := Grammar.take_seq_eq_some.1 hrest
  have hlt := (Grammar.take_reaches htake).2 hne
  have hnext : language.next {} q = Blank.skip pos' (u ++ rest) := hskip
  -- The further repetitions start behind the blanks where the others start.
  have hmore : ∃ q₁, language.more {} a q = some (zs, q₁) ∧
      language.next {} q₁ = language.next {} q'' := by
    rw [Grammar.more_eq, hnext]
    cases hsome : language.take {} a (Blank.skip pos' (u ++ rest)) with
    | none =>
      rw [Grammar.take_many_nil hsome] at hmany
      cases hmany
      exact ⟨q, rfl, by rw [hnext, Language.next_spaced, Blank.skip_skip]⟩
    | some m =>
      obtain ⟨us, q₂⟩ := m
      have hlt₂ := (Grammar.take_reaches hsome).2 hne
      have hle : q.pos ≤ (Blank.skip pos' (u ++ rest)).pos := by
        rw [← hnext]
        exact (Grammar.reaches_next language {} q).pos_le
      rw [Grammar.take_many_cons hsome hlt₂] at hmany
      have hlt₃ : q.pos < q₂.pos := Nat.lt_of_le_of_lt hle hlt₂
      exact ⟨q'', by simpa only [if_pos hlt₃] using hmany, rfl⟩
  obtain ⟨q₁, hmore, hsame⟩ := hmore
  refine ⟨xs ++ (zs ++ ws), q', pos'', ?_, hskip', xs, zs ++ ws, rfl, hxs, hys⟩
  rw [Grammar.take_seq_eq_some]
  refine ⟨xs ++ zs, q₁, ws, ?_, by rw [hsame, hb], by rw [List.append_assoc]⟩
  rw [List.append_assoc, Grammar.take_many_cons htake hlt, hmore]
  rfl

/-! ### Expressions that fail -/

namespace Fails

theorem seqLeft (ha : Fails a u) : Fails (.seq a b) u := fun pos => by
  rw [Grammar.take_seq, ha pos, Option.bind_none]

theorem seqRight (ha : Reads a u rest P) (hb : Fails b rest) : Fails (.seq a b) (u ++ rest) :=
  fun pos => by
    obtain ⟨xs, q, pos', htake, hskip, -⟩ := ha pos
    rw [Grammar.take_seq, htake, Option.bind_some, Language.next_spaced, hskip, hb pos',
      Option.map_none]

theorem alt (ha : Fails a u) (hb : Fails b u) : Fails (.alt a b) u := fun pos => by
  rw [Grammar.take_alt, ha pos, hb pos, Option.none_or]

theorem refuse (ha : Reads a u rest P) : Fails (.refuse a) (u ++ rest) := fun pos => by
  obtain ⟨xs, q, pos', htake, -⟩ := ha pos
  rw [Grammar.take_refuse, htake]
  rfl

theorem inline (hr : r.mode = .inline) (h : Fails r.expression u) : Fails (.rule r) u :=
  fun pos => by rw [Language.take_inline hr, h pos]

theorem phrase (hr : r.mode = .phrase) (h : Fails r.expression u) : Fails (.rule r) u :=
  fun pos => by rw [Language.take_phrase hr, h pos, Option.map_none]

theorem token {c : Char} (hr : r.mode = .token) (hc : Blank.solid c = true)
    (h : NoLexeme r.expression (c :: u)) : Fails (.rule r) (c :: u) := fun pos => by
  rw [Blank.skip_of_solid hc, Language.take_token hr, h pos, Option.map_none]

theorem keyword {c : Char} (hr : r.mode = .keyword) (hc : Blank.solid c = true)
    (h : NoLexeme r.expression (c :: u)) : Fails (.rule r) (c :: u) := fun pos => by
  rw [Blank.skip_of_solid hc, Language.take_keyword hr, h pos, Option.map_none]

/-- At the end of the text everything fails that has to take a character. -/
theorem nil (hne : e.mayBeEmpty Rule.empty = false) : Fails e [] := fun pos => by
  cases htake : language.take {} e (Blank.skip pos []) with
  | none => rfl
  | some m =>
    obtain ⟨xs, q⟩ := m
    obtain ⟨⟨v, hv, hpos⟩, hlt⟩ := Grammar.take_reaches htake
    have hnil : v = [] := (List.append_eq_nil_iff.1 hv.symm).1
    have := hlt hne
    rw [hpos, hnil, Utf8.length_nil] at this
    omega

end Fails

/-! ### First characters -/

namespace Peg

/-- Whether an expression may take a character first, given that of its rules. -/
def takesFirst (first : Rule → Char → Bool) : Peg Rule → Char → Bool
  | .text (d :: _), c => c == d
  | .char accepts, c => accepts c
  | .rule r, c => first r c
  | .seq a b, c => takesFirst first a c || a.mayBeEmpty Rule.empty && takesFirst first b c
  | .alt a b, c => takesFirst first a c || takesFirst first b c
  | .opt a, c | .many a, c => takesFirst first a c
  | _, _ => false

end Peg

/-- Whether a rule may take a character first, seen through `n` levels of rules. -/
def Rule.takesFirst : Nat → Rule → Char → Bool
  | 0, _, _ => true
  | n + 1, r, c => Peg.takesFirst (takesFirst n) r.expression c

/-- Whether an expression can only fail before a character. -/
def Peg.avoids (e : Peg Rule) (c : Char) : Bool :=
  !e.mayBeEmpty Rule.empty && !e.takesFirst (Rule.takesFirst 9) c

section First

variable {d : Char} {pos : Nat} {c : Context} {xs : List (Phrase Rule)} {q : Place}

theorem next_of_solid (hd : Blank.solid d = true) :
    language.next c ⟨pos, d :: u⟩ = ⟨pos, d :: u⟩ := by
  unfold Grammar.next
  split
  · exact Blank.skip_of_solid hd pos u
  · rfl

/-- A place that is reached without taking a character is where it was. -/
theorem eq_of_reaches {p q : Place} (h : p.Reaches q) (hle : q.pos ≤ p.pos) : q = p := by
  obtain ⟨v, hv, hpos⟩ := h
  cases v with
  | nil =>
    obtain ⟨pos, rest⟩ := q
    rw [List.nil_append] at hv
    rw [Utf8.length_nil, Nat.add_zero] at hpos
    simp only at hv hpos
    rw [hpos, ← hv]
  | cons e v =>
    have := e.utf8Size_pos
    simp only [Utf8.length_cons] at hpos
    omega

/-- What holds of a match that takes something, if the expression takes no first character
    itself and it holds of the rules that are tried first.  It has to stay true when more is
    taken behind the match or nothing in front of it. -/
theorem holds_of_rules {G : List (Phrase Rule) → Place → Prop} {n : Nat}
    (hbefore : ∀ {xs ys : List (Phrase Rule)} {q q' : Place}, G xs q → q.Reaches q' →
      G (xs ++ ys) q')
    (hbehind : ∀ {xs ys : List (Phrase Rule)} {q : Place}, G ys q → G (xs ++ ys) q)
    (first : Rule → Char → Bool) (hfirst : e.takesFirst first d = false)
    (hn : e.depth language.nesting Rule.empty Rule.rank ≤ n) (hd : Blank.solid d = true)
    (hrule : ∀ {r : Rule} {xs : List (Phrase Rule)} {q : Place}, r.rank ≤ n → first r d = false →
      language.take c (.rule r) ⟨pos, d :: u⟩ = some (xs, q) → pos < q.pos → G xs q)
    (h : language.take c e ⟨pos, d :: u⟩ = some (xs, q)) (hlt : pos < q.pos) : G xs q := by
  induction e generalizing xs q with
  | text ts =>
    rw [Grammar.take_text, Option.map_eq_some_iff] at h
    obtain ⟨q', hskip, hq⟩ := h
    cases hq
    obtain ⟨hrest, hpos⟩ := Place.skipText_reaches hskip
    cases ts with
    | nil =>
      rw [Utf8.length_nil] at hpos
      exact absurd hlt (by simp only at hpos; omega)
    | cons t ts =>
      cases hrest
      simp [Peg.takesFirst] at hfirst
  | char accepts =>
    obtain ⟨d', v, hrest, hacc, -⟩ := take_char_eq_some h
    cases hrest
    rw [Peg.takesFirst, hacc] at hfirst
    cases hfirst
  | stop => cases h
  | rule r => exact hrule hn hfirst h hlt
  | seq a b iha ihb =>
    obtain ⟨ys, q', zs, ha, hb, rfl⟩ := Grammar.take_seq_eq_some.1 h
    obtain ⟨hreach, hpos⟩ := Grammar.take_reaches ha
    rw [Peg.takesFirst, Bool.or_eq_false_iff, Bool.and_eq_false_iff] at hfirst
    rw [Peg.depth] at hn
    by_cases hlt' : pos < q'.pos
    · have hmore := (Grammar.reaches_next language c q').trans (Grammar.take_reaches hb).1
      exact hbefore (iha hfirst.1 (by omega) ha hlt') hmore
    · have hq' : q' = ⟨pos, d :: u⟩ := eq_of_reaches hreach (by simp only; omega)
      rw [hq', next_of_solid hd] at hb
      have hempty : a.mayBeEmpty Rule.empty = true := by
        by_contra hne
        exact hlt' (hpos (Bool.eq_false_iff.2 hne))
      rw [if_pos hempty] at hn
      exact hbehind (ihb (hfirst.2.resolve_left (by simp [hempty])) (by omega) hb hlt)
  | alt a b iha ihb =>
    rw [Grammar.take_alt, Option.or_eq_some_iff] at h
    rw [Peg.takesFirst, Bool.or_eq_false_iff] at hfirst
    rw [Peg.depth] at hn
    rcases h with ha | ⟨-, hb⟩
    · exact iha hfirst.1 (by omega) ha hlt
    · exact ihb hfirst.2 (by omega) hb hlt
  | opt a iha =>
    rw [Grammar.take_opt, Option.or_eq_some_iff] at h
    rw [Peg.depth] at hn
    rcases h with ha | ⟨-, hq⟩
    · exact iha hfirst (by omega) ha hlt
    · cases hq
      exact absurd hlt (Nat.lt_irrefl _)
  | many a iha =>
    rw [Peg.depth] at hn
    cases ha : language.take c a ⟨pos, d :: u⟩ with
    | none =>
      rw [Grammar.take_many_nil ha] at h
      cases h
      exact absurd hlt (Nat.lt_irrefl _)
    | some m =>
      obtain ⟨ys, q'⟩ := m
      by_cases hlt' : pos < q'.pos
      · rw [Grammar.take_many_cons ha hlt', Option.map_eq_some_iff] at h
        obtain ⟨⟨zs, q''⟩, hmore, hq⟩ := h
        cases hq
        exact hbefore (iha hfirst (by omega) ha hlt') ((Grammar.run_reaches_and _).2 hmore)
      · rw [Grammar.take_many, ha] at h
        simp only [if_neg hlt'] at h
        cases h
        exact absurd hlt hlt'
  | ahead a =>
    rw [Grammar.take_ahead, Option.map_eq_some_iff] at h
    obtain ⟨m, -, hq⟩ := h
    cases hq
    exact absurd hlt (Nat.lt_irrefl _)
  | refuse a =>
    rw [Grammar.take_refuse] at h
    split at h
    · cases h
    · cases h
      exact absurd hlt (Nat.lt_irrefl _)

/-- A match that takes something takes a first character that its expression may
    take, if that holds for the rules. -/
theorem takesFirst_of_rules (first : Rule → Char → Bool) (hd : Blank.solid d = true)
    (hrule : ∀ {c : Context} {r : Rule} {xs : List (Phrase Rule)} {q : Place},
      language.take c (.rule r) ⟨pos, d :: u⟩ = some (xs, q) → pos < q.pos → first r d = true)
    (h : language.take c e ⟨pos, d :: u⟩ = some (xs, q)) (hlt : pos < q.pos) :
    e.takesFirst first d = true := by
  by_contra hne
  refine holds_of_rules (G := fun _ _ => False) (fun hG _ => hG) (fun hG => hG) first
    (Bool.eq_false_iff.2 hne) (Nat.le_refl _) hd (fun _ hr h hlt => ?_) h hlt
  rw [hrule h hlt] at hr
  cases hr

theorem Rule.takesFirst_of_take (n : Nat) (hd : Blank.solid d = true)
    (h : language.take c (.rule r) ⟨pos, d :: u⟩ = some (xs, q)) (hlt : pos < q.pos) :
    Rule.takesFirst n r d = true := by
  induction n generalizing c r xs q with
  | zero => rfl
  | succ n ih =>
    rw [Grammar.take_rule, Option.map_eq_some_iff] at h
    obtain ⟨⟨ys, q'⟩, htake, hq⟩ := h
    cases hq
    exact takesFirst_of_rules (Rule.takesFirst n) hd ih htake hlt

/-- An expression fails before a character that it cannot take first. -/
theorem take_of_avoids (hd : Blank.solid d = true) (h : e.avoids d = true) (c : Context)
    (pos : Nat) (u : List Char) : language.take c e ⟨pos, d :: u⟩ = none := by
  simp only [Peg.avoids, Bool.and_eq_true, Bool.not_eq_true'] at h
  cases htake : language.take c e ⟨pos, d :: u⟩ with
  | none => rfl
  | some m =>
    obtain ⟨xs, q⟩ := m
    have hlt := (Grammar.take_reaches htake).2 h.1
    have := takesFirst_of_rules (Rule.takesFirst 9) hd (Rule.takesFirst_of_take 9 hd) htake hlt
    rw [h.2] at this
    cases this

theorem Fails.first (hd : Blank.solid d = true) (h : e.avoids d = true) (u : List Char) :
    Fails e (d :: u) := fun pos => by
  rw [Blank.skip_of_solid hd, take_of_avoids hd h]

theorem NoLexeme.first (hd : Blank.solid d = true) (h : e.avoids d = true) (u : List Char) :
    NoLexeme e (d :: u) := fun pos => take_of_avoids hd h _ pos u

end First

end Quasiquote
