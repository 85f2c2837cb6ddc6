import Quasiquote.Proofs.Grammar.Language
import Mathlib.Data.List.Infix

namespace Quasiquote

/-!
# Tokens — what the lexical rules take

Inside a token nothing is skipped, so an expression takes a piece of text off the
front or fails.  Names, keywords and operators are taken whole if the character
behind them cannot continue them.

* `Lexeme`, `NoLexeme` — an expression takes exactly a text, or fails before it;
* `Lexeme.texts` — the first of several fixed texts that comes next is taken;
* `Lexeme.tail`, `Lexeme.word`, `Lexeme.reserved` — names and reserved words.
-/

/-- Inside a token, `e` takes exactly `u` if `rest` comes behind it. -/
def Lexeme (e : Peg Rule) (u rest : List Char) : Prop :=
  ∀ pos, language.take .token e ⟨pos, u ++ rest⟩ = some ([], ⟨pos + Utf8.length u, rest⟩)

/-- Inside a token, `e` fails at the start of `u`. -/
def NoLexeme (e : Peg Rule) (u : List Char) : Prop :=
  ∀ pos, language.take .token e ⟨pos, u⟩ = none

namespace Lexeme

variable {a b e : Peg Rule} {u v rest : List Char} {r : Rule}

theorem text (u rest : List Char) : Lexeme (.text u) u rest := fun pos => by
  simp

theorem char {accepts : Char → Bool} {c : Char} (h : accepts c = true) (rest : List Char) :
    Lexeme (.char accepts) [c] rest := fun pos => by
  show language.take .token (.char accepts) ⟨pos, c :: rest⟩ = _
  rw [Grammar.take_char, if_pos h]
  rfl

theorem seq (ha : Lexeme a u (v ++ rest)) (hb : Lexeme b v rest) :
    Lexeme (.seq a b) (u ++ v) rest := fun pos => by
  rw [Grammar.take_seq, List.append_assoc, ha pos]
  simp only [Option.bind_some, Language.next_token, hb (pos + Utf8.length u), Option.map_some,
    List.append_nil, Utf8.length_append, Nat.add_assoc]

theorem altLeft (ha : Lexeme a u rest) : Lexeme (.alt a b) u rest := fun pos => by
  rw [Grammar.take_alt, ha pos, Option.some_or]

theorem altRight (ha : NoLexeme a (u ++ rest)) (hb : Lexeme b u rest) :
    Lexeme (.alt a b) u rest := fun pos => by
  rw [Grammar.take_alt, ha pos, Option.none_or, hb pos]

theorem opt (ha : Lexeme a u rest) : Lexeme (.opt a) u rest := fun pos => by
  rw [Grammar.take_opt, ha pos, Option.some_or]

theorem optNone (ha : NoLexeme a rest) : Lexeme (.opt a) [] rest := fun pos => by
  rw [Grammar.take_opt]
  simp [ha pos]

theorem refuse (ha : NoLexeme a rest) : Lexeme (.refuse a) [] rest := fun pos => by
  rw [Grammar.take_refuse]
  simp [ha pos]

theorem ahead (ha : Lexeme a u v) : Lexeme (.ahead a) [] (u ++ v) := fun pos => by
  rw [Grammar.take_ahead]
  simp [ha pos]

theorem rule (hr : r.mode ≠ .tight) (h : Lexeme r.expression u rest) :
    Lexeme (.rule r) u rest := fun pos => by
  rw [Language.take_of_token hr, h pos]
  rfl

theorem manyNil (ha : NoLexeme a rest) : Lexeme (.many a) [] rest :=
  fun pos => Grammar.take_many_nil (ha pos)

theorem manyCons (hne : v ≠ []) (ha : Lexeme a v (u ++ rest)) (h : Lexeme (.many a) u rest) :
    Lexeme (.many a) (v ++ u) rest := fun pos => by
  have hv := Utf8.length_pos hne
  have hmore : language.more .token a ⟨pos + Utf8.length v, u ++ rest⟩ =
      some ([], ⟨pos + Utf8.length v + Utf8.length u, rest⟩) := by
    have hmany := h (pos + Utf8.length v)
    rw [Grammar.take_many] at hmany
    rw [Grammar.more_eq, Language.next_token]
    cases htake : language.take .token a ⟨pos + Utf8.length v, u ++ rest⟩ with
    | none => simpa only [htake] using hmany
    | some m =>
      obtain ⟨xs, q⟩ := m
      simp only [htake] at hmany ⊢
      split
      · next hlt => rwa [if_pos hlt] at hmany
      · next hlt =>
        rw [if_neg hlt] at hmany
        cases hmany
        have hu : u = [] := by
          by_contra hu
          have := Utf8.length_pos hu
          exact hlt (by simp only; omega)
        subst hu
        rfl
  rw [List.append_assoc, Grammar.take_many_cons (ha pos) (by simp only; omega), hmore]
  simp [Nat.add_assoc, Utf8.length_append]

/-- An expression that takes one character of a class, as long as there is one. -/
theorem many {f : Char → Bool}
    (hnil : NoLexeme a [])
    (hcons : ∀ d v, if f d then Lexeme a [d] v else NoLexeme a (d :: v))
    (hu : ∀ c ∈ u, f c = true) (hrest : ∀ d v, rest = d :: v → f d = false) :
    Lexeme (.many a) u rest := by
  induction u with
  | nil =>
    refine .manyNil ?_
    cases rest with
    | nil => exact hnil
    | cons d v =>
      have := hcons d v
      rwa [if_neg (by simp [hrest d v rfl])] at this
  | cons c u ih =>
    have htake := hcons c (u ++ rest)
    rw [if_pos (hu c List.mem_cons_self)] at htake
    exact .manyCons (List.cons_ne_nil c []) htake (ih fun d hd => hu d (List.mem_cons_of_mem _ hd))

end Lexeme

namespace NoLexeme

variable {a b e : Peg Rule} {u v rest : List Char} {r : Rule}

theorem text (h : ¬ u <+: rest) : NoLexeme (.text u) rest := fun pos => by
  rw [Grammar.take_text, Place.skipText_eq_none pos h]
  rfl

theorem char {accepts : Char → Bool} (h : ∀ d v, rest = d :: v → accepts d = false) :
    NoLexeme (.char accepts) rest := fun pos => by
  cases rest with
  | nil => rfl
  | cons d v => rw [Grammar.take_char, h d v rfl]; rfl

theorem seqLeft (ha : NoLexeme a rest) : NoLexeme (.seq a b) rest := fun pos => by
  rw [Grammar.take_seq, ha pos, Option.bind_none]

theorem seqRight (ha : Lexeme a u rest) (hb : NoLexeme b rest) :
    NoLexeme (.seq a b) (u ++ rest) := fun pos => by
  rw [Grammar.take_seq, ha pos, Option.bind_some, Language.next_token, hb]
  rfl

theorem alt (ha : NoLexeme a rest) (hb : NoLexeme b rest) : NoLexeme (.alt a b) rest :=
  fun pos => by rw [Grammar.take_alt, ha pos, hb pos, Option.none_or]

theorem refuse (ha : Lexeme a u rest) : NoLexeme (.refuse a) (u ++ rest) := fun pos => by
  rw [Grammar.take_refuse, ha pos]
  rfl

theorem rule (hr : r.mode ≠ .tight) (h : NoLexeme r.expression rest) :
    NoLexeme (.rule r) rest := fun pos => by
  rw [Language.take_of_token hr, h pos]
  rfl

end NoLexeme

/-! ### Alternatives of fixed texts -/

/-- A character that can continue a name. -/
def isIdent (c : Char) : Bool := c.isAlphanum || c == '_'

/-- Nothing here continues a name. -/
def Edge (rest : List Char) : Prop := ∀ d v, rest = d :: v → isIdent d = false

theorem edge_nil : Edge [] := fun _ _ h => by cases h

theorem edge_cons {d : Char} (h : isIdent d = false) (v : List Char) : Edge (d :: v) :=
  fun _ _ heq => by cases heq; exact h

theorem take_alts_nil (c : Context) (p : Place) : language.take c (Peg.alts []) p = none := by
  rw [Peg.alts, Grammar.take_refuse]
  rfl

theorem take_alts_cons (c : Context) (e : Peg Rule) (es : List (Peg Rule)) (p : Place) :
    language.take c (Peg.alts (e :: es)) p =
      (language.take c e p).or (language.take c (Peg.alts es) p) := by
  cases es with
  | nil =>
    rw [take_alts_nil, Option.or_none]
    rfl
  | cons e' es => exact Grammar.take_alt c e (Peg.alts (e' :: es)) p

/-- A match of one of several fixed texts takes one of them. -/
theorem take_texts (ws : List String) (pos : Nat) (u : List Char) :
    language.take .token (Peg.alts (ws.map Peg.lit)) ⟨pos, u⟩ = none ∨
      ∃ w ∈ ws, ∃ v, u = w.toList ++ v ∧
        language.take .token (Peg.alts (ws.map Peg.lit)) ⟨pos, u⟩ =
          some ([], ⟨pos + Utf8.length w.toList, v⟩) := by
  induction ws with
  | nil => exact .inl (take_alts_nil _ _)
  | cons w ws ih =>
    rw [List.map_cons, take_alts_cons]
    by_cases hw : w.toList <+: u
    · obtain ⟨v, rfl⟩ := hw
      refine .inr ⟨w, List.mem_cons_self, v, rfl, ?_⟩
      rw [Peg.lit, Lexeme.text w.toList v pos, Option.some_or]
    · rw [Peg.lit, NoLexeme.text hw pos, Option.none_or]
      rcases ih with hnone | ⟨w', hw', hrest⟩
      · exact .inl hnone
      · exact .inr ⟨w', List.mem_cons_of_mem _ hw', hrest⟩

/-- The first of several fixed texts that comes next is taken. -/
theorem Lexeme.texts {ws : List String} {w : String} {rest : List Char}
    (h : ws.find? (fun s => s.toList.isPrefixOf (w.toList ++ rest)) = some w) :
    Lexeme (Peg.alts (ws.map Peg.lit)) w.toList rest := fun pos => by
  induction ws with
  | nil => cases h
  | cons s ws ih =>
    rw [List.map_cons, take_alts_cons]
    rw [List.find?_cons] at h
    split at h
    · cases h
      rw [Peg.lit, Lexeme.text w.toList rest pos, Option.some_or]
    · next hs =>
      have hno : ¬ s.toList <+: w.toList ++ rest := by
        rw [← List.isPrefixOf_iff_prefix, hs]
        exact Bool.false_ne_true
      rw [Peg.lit, NoLexeme.text hno pos, Option.none_or, ih h]

theorem NoLexeme.texts {ws : List String} {u : List Char}
    (h : ∀ w ∈ ws, ¬ w.toList <+: u) : NoLexeme (Peg.alts (ws.map Peg.lit)) u := fun pos => by
  rcases take_texts ws pos u with hnone | ⟨w, hw, v, rfl, -⟩
  · exact hnone
  · exact absurd ⟨v, rfl⟩ (h w hw)

/-! ### Words -/

/-- A text of characters that can stand in names, before an edge, is the longest
    such text. -/
theorem prefix_of_edge {w s rest : List Char} (hw : ∀ c ∈ w, isIdent c = true)
    (hrest : Edge rest) (h : w <+: s ++ rest) : w <+: s := by
  induction w generalizing s with
  | nil => exact List.nil_prefix
  | cons c w ih =>
    cases s with
    | nil =>
      obtain ⟨v, hv⟩ := h
      have := hrest c (w ++ v) (by simpa using hv.symm)
      rw [hw c List.mem_cons_self] at this
      cases this
    | cons d s =>
      rw [List.cons_append, List.cons_prefix_cons] at h
      rw [List.cons_prefix_cons]
      exact ⟨h.1, ih (fun d hd => hw d (List.mem_cons_of_mem _ hd)) h.2⟩

theorem Lexeme.identChar {c : Char} (h : isIdent c = true) (rest : List Char) :
    Lexeme (.rule .identChar) [c] rest :=
  .rule (by decide) (.char h rest)

theorem NoLexeme.identChar {rest : List Char} (h : Edge rest) :
    NoLexeme (.rule .identChar) rest :=
  .rule (by decide) (.char fun d v hd => h d v hd)

/-- The rest of a name is taken up to the edge. -/
theorem Lexeme.tail {u rest : List Char} (hu : ∀ c ∈ u, isIdent c = true)
    (hrest : Edge rest) : Lexeme Rule.tail u rest := by
  refine .many (f := isIdent) (.identChar edge_nil) (fun d v => ?_) hu hrest
  by_cases hd : isIdent d = true
  · rw [if_pos hd]
    exact .identChar hd v
  · rw [if_neg hd]
    exact .identChar (edge_cons (by simpa using hd) v)

/-- A reserved word before an edge is taken. -/
theorem Lexeme.word (s : String) {rest : List Char} (hrest : Edge rest) :
    Lexeme (Rule.word s) s.toList rest := by
  have := Lexeme.seq (b := .refuse (.rule .identChar)) (v := []) (.text s.toList rest)
    (.refuse (.identChar hrest))
  rwa [List.append_nil] at this

/-- Another word is not taken for a reserved word. -/
theorem NoLexeme.word {s : String} {w rest : List Char} (hs : ∀ c ∈ s.toList, isIdent c = true)
    (hw : ∀ c ∈ w, isIdent c = true) (hrest : Edge rest) (hne : s.toList ≠ w) :
    NoLexeme (Rule.word s) (w ++ rest) := by
  by_cases hpre : s.toList <+: w ++ rest
  · obtain ⟨v, rfl⟩ := prefix_of_edge hs hrest hpre
    cases v with
    | nil => exact absurd (List.append_nil _).symm hne
    | cons d v =>
      rw [List.append_assoc]
      refine .seqRight (.text _ _) ?_
      exact .refuse (u := [d]) (.identChar (hw d (by simp)) _)
  · exact .seqLeft (.text hpre)

/-- What holds of every character of a text is decided along the text. -/
instance decidableForallMemChars {p : Char → Prop} [DecidablePred p] (u : List Char) :
    Decidable (∀ c ∈ u, p c) := List.decidableBAll p u

/-- The words that are no names. -/
def reservedWords : List String :=
  ["if", "elsif", "else", "end", "class", "def", "do", "then", "true", "false", "nil", "self",
    "quote"]

theorem isIdent_of_mem_reservedWords {w : String} (h : w ∈ reservedWords) :
    ∀ c ∈ w.toList, isIdent c = true := by
  have hall : ∀ w ∈ reservedWords, ∀ c ∈ w.toList, isIdent c = true := by decide
  exact hall w h

/-- No reserved word starts another one. -/
theorem eq_of_reserved_prefix {x w : String} (hx : x ∈ reservedWords) (hw : w ∈ reservedWords)
    (h : x.toList <+: w.toList) : x = w := by
  have hall : ∀ x ∈ reservedWords, ∀ w ∈ reservedWords,
      x.toList.isPrefixOf w.toList = true → x = w := by decide
  exact hall x hx w hw (List.isPrefixOf_iff_prefix.2 h)

/-- A reserved word before an edge is recognized as one. -/
theorem Lexeme.reserved {w : String} {rest : List Char} (hw : w ∈ reservedWords)
    (hrest : Edge rest) : Lexeme (.rule .reserved) w.toList rest := by
  refine .rule (by decide) ?_
  have hseq : Lexeme (.seq (Peg.alts (reservedWords.map Peg.lit)) (.refuse (.rule .identChar)))
      (w.toList ++ []) rest := by
    refine .seq (.texts ?_) (.refuse (.identChar hrest))
    rw [List.nil_append]
    have hsome : (reservedWords.find? fun s => s.toList.isPrefixOf (w.toList ++ rest)).isSome :=
      List.find?_isSome.2 ⟨w, hw, List.isPrefixOf_iff_prefix.2 (List.prefix_append _ _)⟩
    obtain ⟨x, hx⟩ := Option.isSome_iff_exists.1 hsome
    have hmem : x ∈ reservedWords := List.mem_of_find?_eq_some hx
    have hfound := List.find?_some (p := fun s : String => s.toList.isPrefixOf (w.toList ++ rest)) hx
    have hpre : x.toList <+: w.toList ++ rest := List.isPrefixOf_iff_prefix.1 hfound
    rw [hx, eq_of_reserved_prefix hmem hw
      (prefix_of_edge (isIdent_of_mem_reservedWords hmem) hrest hpre)]
  rwa [List.append_nil] at hseq

/-- A word that is not reserved is not recognized as reserved. -/
theorem NoLexeme.reserved {w rest : List Char} (hw : ∀ c ∈ w, isIdent c = true)
    (hrest : Edge rest) (hnot : String.ofList w ∉ reservedWords) :
    NoLexeme (.rule .reserved) (w ++ rest) := by
  refine .rule (by decide) fun pos => ?_
  rw [Rule.expression, Grammar.take_seq]
  rcases take_texts reservedWords pos (w ++ rest) with hnone | ⟨x, hx, v, hv, hsome⟩
  · exact congrArg (Option.bind · _) hnone
  · have hpre := prefix_of_edge (isIdent_of_mem_reservedWords hx) hrest ⟨v, hv.symm⟩
    obtain ⟨es, rfl⟩ := hpre
    rw [List.append_assoc, List.append_cancel_left_eq] at hv
    cases es with
    | nil => exact absurd (by simpa using hx) hnot
    | cons e es =>
      have hno : NoLexeme (.refuse (.rule .identChar)) v := by
        rw [← hv]
        exact .refuse (u := [e]) (.identChar (hw e (by simp)) _)
      refine (congrArg (Option.bind · _) hsome).trans ?_
      rw [Option.bind_some, Language.next_token, hno]
      rfl

end Quasiquote
