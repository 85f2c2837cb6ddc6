import Quasiquote.Node.Printer
import Quasiquote.Proofs.Program.Calls
import Quasiquote.Proofs.Text.Digits

namespace Quasiquote

/-!
# Literals and names

The simple expressions without parts: numbers, strings, reserved words and names.

* `IsSimple.int`, `IsSimple.float`, `IsSimple.str` — literals;
* `IsSimple.bool`, `IsSimple.nil`, `IsSimple.self` — the words that stand for values;
* `fails_word`, `fails_at_name` — what a name is not taken for.
-/

open Peg (lit seqs alts)

variable {env : Reading} {s : Reading.Supply env} {u v es rest : List Char}
  {n : Node} {is : List Nat} {sp : Span} {x : String}

/-- A simple expression that its first character tells from the alternatives before it. -/
theorem IsSimple.of_first {c : Char} (r : Rule) (hr : r ∈ primaryRules)
    (hc : startsExpr c = true ∧ (Peg.rule .signOp).avoids c = true ∧
      (Peg.rule .assignment).avoids c = true ∧
      ∀ r' ∈ primaryRules.takeWhile (· ≠ r), (Peg.rule r').avoids c = true)
    (h : ∀ {rest}, Boundary rest → Reads (.rule r) (c :: u) rest fun phs =>
      ∃ ph, phs = [ph] ∧ s.Stands ph n is) : IsSimple s (c :: u) n is where
  head := ⟨c, u, rfl, hc.1⟩
  noSign _ := .first (solid_of_startsExpr hc.1) hc.2.1 _
  noAssign _ := .first (solid_of_startsExpr hc.1) hc.2.2.1 _
  reads hrest := .primary r hr (h hrest) fun r' hr' =>
    .first (solid_of_startsExpr hc.1) (hc.2.2.2 r' hr') _

/-! ### Numbers -/

/-- Digits, perhaps behind a minus sign. -/
def signed (negative : Bool) (v : List Char) : List Char :=
  if negative then '-' :: v else v

/-- At least one digit, and nothing else. -/
def IsDigits (v : List Char) : Prop := v ≠ [] ∧ ∀ c ∈ v, c.isDigit = true

/-- No digit comes next. -/
def NoDigit (rest : List Char) : Prop := ∀ d v, rest = d :: v → d.isDigit = false

theorem isDigits_ofNat (k : Nat) : IsDigits (Digits.ofNat k) :=
  ⟨Digits.ofNat_ne_nil k, fun _ hc => Digits.isDigit_of_mem hc⟩

theorem noDigit_cons {c : Char} (h : c.isDigit = false) (u : List Char) : NoDigit (c :: u) :=
  fun _ _ heq => by cases heq; exact h

theorem Edge.noDigit (h : Edge rest) : NoDigit rest := fun d v heq => by
  have hident := h d v heq
  simp only [isIdent, Char.isAlphanum, Bool.or_eq_false_iff] at hident
  exact hident.1.2

theorem IsDigits.exists_head (h : IsDigits v) : ∃ c u, v = c :: u ∧ c ∈ digitChars := by
  obtain ⟨hne, hall⟩ := h
  cases v with
  | nil => exact absurd rfl hne
  | cons c u => exact ⟨c, u, rfl, mem_digitChars (hall c List.mem_cons_self)⟩

theorem Lexeme.digits (h : IsDigits v) (hrest : NoDigit rest) :
    Lexeme (.some Rule.digit) v rest := by
  obtain ⟨hne, hall⟩ := h
  cases v with
  | nil => exact absurd rfl hne
  | cons c u =>
    have hmany : Lexeme (.many Rule.digit) u rest := by
      refine .many (f := Char.isDigit) (.char fun _ _ h => by cases h) (fun d v => ?_)
        (fun d hd => hall d (List.mem_cons_of_mem _ hd)) hrest
      by_cases hd : d.isDigit = true
      · rw [if_pos hd]
        exact .char hd v
      · rw [if_neg hd]
        refine .char fun d' ds' heq => ?_
        cases heq
        simpa using hd
    exact .seq (u := [c]) (.char (hall c List.mem_cons_self) _) hmany

theorem Lexeme.sign (negative : Bool) (h : IsDigits v) (rest : List Char) :
    Lexeme (.opt (lit "-")) (signed negative []) (v ++ rest) := by
  cases negative with
  | true => exact .opt (.text ['-'] _)
  | false =>
    obtain ⟨c, u, rfl, hc⟩ := h.exists_head
    have hno : ∀ c ∈ digitChars, c ≠ '-' := by decide
    refine .optNone (.text ?_)
    rw [List.cons_append]
    intro hpre
    exact hno c hc (List.cons_prefix_cons.1 hpre).1.symm

theorem signed_append (negative : Bool) (v : List Char) :
    signed negative v = signed negative [] ++ v := by cases negative <;> rfl

theorem Lexeme.integer (negative : Bool) (h : IsDigits v) (hrest : NoDigit rest) :
    Lexeme Rule.integer.expression (signed negative v) rest := by
  rw [signed_append]
  exact .seq (.sign negative h rest) (.digits h hrest)

theorem Lexeme.float (negative : Bool) (hv : IsDigits v) (hes : IsDigits es)
    (hrest : NoDigit rest) :
    Lexeme Rule.float.expression (signed negative (v ++ '.' :: es)) rest := by
  rw [signed_append]
  have hpoint : NoDigit ((['.'] ++ es) ++ rest) := noDigit_cons (by decide) _
  refine .seq ?_ (.seq (.digits hv hpoint) (.seq (u := ['.']) (.text ['.'] _) (.digits hes hrest)))
  have := Lexeme.sign negative hv (('.' :: es) ++ rest)
  rwa [← List.append_assoc] at this

/-- An integer is no float unless a point and a digit come next. -/
theorem NoLexeme.float (negative : Bool) (h : IsDigits v) (hrest : NoDigit rest)
    (hpoint : ∀ d es, rest = '.' :: d :: es → d.isDigit = false) :
    NoLexeme Rule.float.expression (signed negative v ++ rest) := by
  rw [signed_append, List.append_assoc]
  refine .seqRight (.sign negative h rest) (.seqRight (.digits h hrest) ?_)
  cases rest with
  | nil => exact .seqLeft (.text (by simp))
  | cons c u =>
    by_cases hc : c = '.'
    · subst hc
      refine .seqRight (u := ['.']) (.text ['.'] u) (.seqLeft (.char fun d es heq => ?_))
      exact hpoint d es (by rw [heq])
    · refine .seqLeft (.text ?_)
      intro hpre
      exact hc (List.cons_prefix_cons.1 hpre).1.symm

theorem exists_number_head (negative : Bool) (h : IsDigits v) :
    ∃ c u, signed negative v = c :: u ∧ c ∈ '-' :: digitChars := by
  cases negative with
  | true => exact ⟨'-', v, rfl, List.mem_cons_self⟩
  | false =>
    obtain ⟨c, u, rfl, hc⟩ := h.exists_head
    exact ⟨c, u, rfl, List.mem_cons_of_mem _ hc⟩

/-- Before a number there is no sign: a minus sign before a digit belongs to the number. -/
theorem noSign_number (negative : Bool) (h : IsDigits v) (rest : List Char) :
    Fails (.rule .signOp) (signed negative v ++ rest) := by
  obtain ⟨c, u, rfl, hc⟩ := h.exists_head
  have hall : ∀ c ∈ digitChars, c.isDigit = true ∧ Blank.solid c = true ∧
      (Peg.rule .signOp).avoids c = true := by decide
  obtain ⟨hdigit, hsolid, havoid⟩ := hall c hc
  cases negative with
  | true =>
    have hno : NoLexeme Rule.negOp.expression (['-'] ++ (c :: (u ++ rest))) :=
      .seqRight (.text ['-'] _) (.refuse (u := [c]) (.char hdigit _))
    have hneg : Fails (.rule .negOp) (signed true (c :: u) ++ rest) := .token rfl (by decide) hno
    exact .inline rfl (.alt (.first (by decide) (by decide) _) hneg)
  | false => exact .first hsolid havoid _

/-- What a number reads as, in front of an operand's end. -/
theorem IsSimple.number (negative : Bool) (h : IsDigits v) (hreads : ∀ {rest}, Boundary rest →
      Reads (.rule .primary) (signed negative (v ++ es)) rest fun phs =>
        ∃ ph, phs = [ph] ∧ s.Stands ph n is) : IsSimple s (signed negative (v ++ es)) n is := by
  have htext (rest : List Char) : signed negative (v ++ es) ++ rest =
      signed negative v ++ (es ++ rest) := by
    cases negative <;> simp [signed]
  have hall : ∀ c ∈ '-' :: digitChars, startsExpr c = true ∧
      (Peg.rule .assignment).avoids c = true := by decide
  obtain ⟨c, u, hnumber, hc⟩ := exists_number_head negative h
  exact {
    head := by
      have hcons := htext []
      rw [List.append_nil, List.append_nil, hnumber] at hcons
      exact ⟨c, _, hcons, (hall c hc).1⟩
    noSign := fun rest => by
      rw [htext]
      exact noSign_number negative h _
    noAssign := fun _ => by
      rw [htext, hnumber]
      exact .first (solid_of_startsExpr (hall c hc).1) (hall c hc).2 _
    reads := hreads }

theorem natOfDigits_signed (negative : Bool) (h : IsDigits v) :
    Reading.integerOf (String.ofList (signed negative v)) =
      if negative then -(Decimal.natOfDigits v : Int) else Decimal.natOfDigits v := by
  cases negative with
  | true => simp [Reading.integerOf, signed]
  | false =>
    obtain ⟨c, u, rfl, hc⟩ := h.exists_head
    have hno : ∀ c ∈ digitChars, c ≠ '-' := by decide
    have hne := hno c hc
    simp only [Reading.integerOf, signed, String.toList_ofList, Bool.false_eq_true, if_false]
    split
    · next heq => exact absurd (List.cons.inj heq).1 hne
    · rfl

/-- How an integer is written. -/
theorem toList_toString_int (i : Int) :
    (toString i).toList = signed (decide (i < 0)) (Digits.ofNat i.natAbs) := by
  cases i with
  | ofNat k =>
    have hnonneg : ¬ Int.ofNat k < 0 := by simp
    rw [decide_eq_false hnonneg]
    exact Digits.toList_toString k
  | negSucc k =>
    have hneg : Int.negSucc k < 0 := Int.negSucc_lt_zero k
    rw [decide_eq_true hneg]
    show ("-" ++ toString (k + 1)).toList = _
    rw [String.toList_append, Digits.toList_toString]
    rfl

theorem IsSimple.int {i : Int} (hfits : Word.fits i = true) :
    IsSimple s (toString i).toList ⟨sp, .int i⟩ [] := by
  have hv := isDigits_ofNat i.natAbs
  have hvalue : Reading.integerOf
      (String.ofList (signed (decide (i < 0)) (Digits.ofNat i.natAbs))) = i := by
    rw [natOfDigits_signed _ hv, Digits.natOfDigits_ofNat]
    by_cases h : i < 0
    · rw [decide_eq_true h, if_pos rfl]
      omega
    · rw [decide_eq_false h, if_neg Bool.false_ne_true]
      omega
  have hnumber : IsSimple s (signed (decide (i < 0)) (Digits.ofNat i.natAbs ++ []))
      ⟨sp, .int i⟩ [] := .number (decide (i < 0)) hv fun {rest} hrest => ?_
  · rwa [List.append_nil, ← toList_toString_int] at hnumber
  obtain ⟨c, u, hu, hc⟩ := exists_number_head (decide (i < 0)) hv
  have hsolid : ∀ c ∈ '-' :: digitChars, Blank.solid c = true := by decide
  have hedge := hrest.edge.noDigit
  have hinteger := Lexeme.integer (decide (i < 0)) hv hedge
  have hfloat := NoLexeme.float (decide (i < 0)) hv hedge fun d es heq => hrest.not_digit heq
  rw [List.append_nil]
  rw [hu] at hinteger hfloat hvalue ⊢
  refine .primary .integer (by decide) (.mono (.token rfl (hsolid c hc) hinteger) ?_) fun r hr => ?_
  · rintro phs ⟨sp', rfl⟩
    exact ⟨_, rfl, .integer hvalue hfits⟩
  · have hbefore : ∀ r ∈ primaryRules.takeWhile (· ≠ .integer), r = .float := by decide
    rw [hbefore r hr]
    exact .token rfl (hsolid c hc) hfloat

/-- A float that its text stands for. -/
structure IsReadable (x : Float) : Prop where
  text : ∃ negative v es, (Decimal.exact x).toList = signed negative (v ++ '.' :: es) ∧
    IsDigits v ∧ IsDigits es
  value : Reading.floatOf (Decimal.exact x) = x

theorem IsSimple.float {x : Float} (h : IsReadable x) :
    IsSimple s (Decimal.exact x).toList ⟨sp, .float x⟩ [] := by
  obtain ⟨⟨negative, v, es, htext, hv, hes⟩, hvalue⟩ := h
  rw [htext]
  refine .number negative hv fun {rest} hrest => ?_
  have hfloat := Lexeme.float negative hv hes hrest.edge.noDigit
  have hhead : ∃ c u, signed negative (v ++ '.' :: es) = c :: u ∧ Blank.solid c = true := by
    have hsolid : ∀ c ∈ '-' :: digitChars, Blank.solid c = true := by decide
    obtain ⟨c, u, hu, hc⟩ := exists_number_head negative hv
    refine ⟨c, u ++ '.' :: es, ?_, hsolid c hc⟩
    rw [← List.cons_append, ← hu]
    cases negative <;> simp [signed]
  obtain ⟨c, u, hu, hsolid⟩ := hhead
  rw [hu] at hfloat ⊢
  refine .primary .float (by decide) (.mono (.token rfl hsolid hfloat) ?_) fun r hr => ?_
  · rintro phs ⟨sp', rfl⟩
    rw [← hu, ← htext, String.ofList_toList]
    exact ⟨_, rfl, .float hvalue⟩
  · have hnone : primaryRules.takeWhile (· ≠ .float) = [] := by decide
    rw [hnone] at hr
    cases hr

/-! ### Strings -/

/-- What stands inside a string literal, up to its closing quote. -/
theorem Lexeme.stringInner (u rest : List Char) :
    Lexeme Rule.stringInner.expression (Literal.escape u) ('"' :: rest) := by
  have hpair (c : Char) (v : List Char) :
      Lexeme (alts [seqs [lit "\\", .char fun _ => true], .char fun c => c != '"' && c != '\\'])
        ['\\', c] v := .altLeft (.seq (u := ['\\']) (.text ['\\'] _) (.char rfl v))
  have hclose : NoLexeme (alts [seqs [lit "\\", .char fun _ => true],
      .char fun c => c != '"' && c != '\\']) ('"' :: rest) :=
    .alt (.seqLeft (.text (by simp))) (.char fun d v heq => by cases heq; rfl)
  show Lexeme (.many _) _ _
  fun_induction Literal.escape u with
  | case1 => exact .manyNil hclose
  | case2 u ih => exact .manyCons (v := ['\\', '"']) (by simp) (hpair _ _) ih
  | case3 u ih => exact .manyCons (v := ['\\', '\\']) (by simp) (hpair _ _) ih
  | case4 u ih => exact .manyCons (v := ['\\', 'n']) (by simp) (hpair _ _) ih
  | case5 u ih => exact .manyCons (v := ['\\', 't']) (by simp) (hpair _ _) ih
  | case6 c u hquote hslash _ _ ih =>
    have hplain : (c != '"' && c != '\\') = true := by
      simpa using ⟨hquote, hslash⟩
    have hno : ¬ ['\\'] <+: c :: (Literal.escape u ++ '"' :: rest) := fun hpre =>
      hslash (List.cons_prefix_cons.1 hpre).1.symm
    exact .manyCons (v := [c]) (by simp) (.altRight (.seqLeft (.text hno)) (.char hplain _)) ih

theorem Reads.string (u rest : List Char) :
    Reads (.rule .string) ('"' :: (Literal.escape u ++ ['"'])) rest fun phs =>
      ∃ sp sp', phs =
        [⟨.string, sp, "", [⟨.stringInner, sp', String.ofList (Literal.escape u), []⟩]⟩] := by
  have hinner : Snug Rule.string.expression (['"'] ++ (Literal.escape u ++ ['"'])) rest _ :=
    .seq (.text ['"'] _) (.seq (.token rfl (.stringInner u rest)) (.text ['"'] rest))
  refine .mono (.tight rfl (by decide) hinner) ?_
  rintro phs ⟨sp, parts, rfl, us, vs, rfl, rfl, zs, ws, rfl, ⟨sp', rfl⟩, rfl⟩
  exact ⟨sp, sp', rfl⟩

theorem IsSimple.str (x : String) : IsSimple s (Literal.quote x).toList ⟨sp, .str x⟩ [] := by
  rw [Literal.quote, String.toList_ofList]
  refine .of_first .string (by decide) (by decide) fun hrest =>
    .mono (.string x.toList _) ?_
  rintro phs ⟨sp', sp'', rfl⟩
  refine ⟨_, rfl, .str ?_⟩
  rw [String.toList_ofList, Literal.unescape_escape, String.ofList_toList]

/-! ### Reserved words -/

/-- No assignment starts with a reserved word. -/
theorem noAssign_reserved {w : String} (hw : w ∈ reservedWords) (hrest : Edge rest) :
    Fails (.rule .assignment) (w.toList ++ rest) := by
  have hfield : ∀ w ∈ reservedWords, w.toList.head?.any (fun c =>
      Blank.solid c && (Peg.rule .field).avoids c) = true := by decide
  obtain ⟨hname, -⟩ := fails_name_reserved hw hrest
  have hw := hfield w hw
  cases hlist : w.toList with
  | nil => rw [hlist] at hw; cases hw
  | cons c u =>
    rw [hlist] at hw hname
    simp only [List.head?_cons, Option.any_some, Bool.and_eq_true] at hw
    exact .phrase rfl (.seqLeft (.alt (.first hw.1 hw.2 _) hname))

/-- A reserved word that stands for a value. -/
theorem IsSimple.word {w : String} (r : Rule) (hw : w ∈ reservedWords) (hmode : r.mode = .token)
    (hr : r ∈ primaryRules) (hexpr : r.expression = Rule.word w)
    (hfirst : w.toList.head?.any (fun c => startsExpr c && (Peg.rule .signOp).avoids c &&
      (primaryRules.takeWhile (· ≠ r)).all fun r' => (Peg.rule r').avoids c) = true)
    (hn : ∀ sp, s.Stands ⟨r, sp, w, []⟩ n []) : IsSimple s w.toList n [] := by
  have hsolid : ∀ w ∈ reservedWords, w.toList.head?.any Blank.solid = true := by decide
  have hreads {rest : List Char} (hrest : Boundary rest) :
      Reads (.rule r) w.toList rest fun phs => ∃ ph, phs = [ph] ∧ s.Stands ph n [] := by
    have hword : Lexeme r.expression w.toList rest := by
      rw [hexpr]
      exact .word w hrest.edge
    refine .mono (.tokenText hmode (hsolid w hw) hword) ?_
    rintro phs ⟨sp', rfl⟩
    exact ⟨_, rfl, hn sp'⟩
  have hassign {rest : List Char} (hrest : Boundary rest) := noAssign_reserved hw hrest.edge
  cases hlist : w.toList with
  | nil => rw [hlist] at hfirst; cases hfirst
  | cons c u =>
    rw [hlist] at hfirst hreads hassign
    simp only [List.head?_cons, Option.any_some, Bool.and_eq_true, List.all_eq_true] at hfirst
    obtain ⟨⟨hstart, hsign⟩, hbefore⟩ := hfirst
    exact {
      head := ⟨c, u, rfl, hstart⟩
      noSign := fun rest => .first (solid_of_startsExpr hstart) hsign _
      noAssign := hassign
      reads := fun hrest => .primary r hr (hreads hrest) fun r' hr' =>
        .first (solid_of_startsExpr hstart) (hbefore r' hr') _ }

theorem IsSimple.bool (b : Bool) : IsSimple s (Node.boolText b).toList ⟨sp, .bool b⟩ [] := by
  cases b with
  | true => exact .word .kwTrue (by decide) rfl (by decide) rfl (by decide) fun _ => .kwTrue
  | false => exact .word .kwFalse (by decide) rfl (by decide) rfl (by decide) fun _ => .kwFalse

theorem IsSimple.nil : IsSimple s "nil".toList ⟨sp, .nil⟩ [] :=
  .word .kwNil (by decide) rfl (by decide) rfl (by decide) fun _ => .kwNil

theorem IsSimple.self : IsSimple s "self".toList ⟨sp, .self⟩ [] :=
  .word .kwSelf (by decide) rfl (by decide) rfl (by decide) fun _ => .kwSelf

/-! ### Names -/

theorem exists_name_head (h : isName x = true) : ∃ c u, x.toList = c :: u ∧ c ∈ nameStarts := by
  simp only [isName, Bool.and_eq_true] at h
  obtain ⟨c, u, hx, hc, -⟩ := isWordFrom_eq_true h.1
  exact ⟨c, u, hx, mem_nameStarts hc⟩

/-- A name is not taken for a reserved word. -/
theorem fails_word {r : Rule} {w : String} (hmode : r.mode = .token ∨ r.mode = .keyword)
    (hexpr : r.expression = Rule.word w) (hw : w ∈ reservedWords) (hx : isName x = true)
    (hrest : Edge rest) : Fails (.rule r) (x.toList ++ rest) := by
  have hne : w.toList ≠ x.toList := by
    intro heq
    rw [isName, ← String.toList_inj.1 heq] at hx
    simp [hw] at hx
  have hno : NoLexeme r.expression (x.toList ++ rest) := by
    rw [hexpr]
    exact .word (isIdent_of_mem_reservedWords hw) (isIdent_of_isName hx) hrest hne
  obtain ⟨c, u, hlist, hc⟩ := exists_name_head hx
  have hsolid : ∀ c ∈ nameStarts, Blank.solid c = true := by decide
  rw [hlist] at hno ⊢
  rcases hmode with hmode | hmode
  · exact .token hmode (hsolid c hc) hno
  · exact .keyword hmode (hsolid c hc) hno

/-- What starts with a name is none of the alternatives that do not start with one. -/
theorem fails_at_name (hx : isName x = true) (hrest : Edge rest) :
    ∀ r ∈ primaryRules, r = .functionCall ∨ r = .command ∨ r = .name ∨
      Fails (.rule r) (x.toList ++ rest) := by
  obtain ⟨c, u, hlist, hc⟩ := exists_name_head hx
  have hall : ∀ c ∈ nameStarts, Blank.solid c = true ∧
      ∀ r ∈ [Rule.float, .integer, .string, .hole, .parenthesized, .field, .constant],
        (Peg.rule r).avoids c = true := by decide
  have hfirst : ∀ r ∈ [Rule.float, .integer, .string, .hole, .parenthesized, .field, .constant],
      Fails (.rule r) (x.toList ++ rest) := fun r hr => by
    rw [hlist]
    exact .first (hall c hc).1 ((hall c hc).2 r hr) _
  intro r hr
  simp only [primaryRules, List.mem_cons, List.not_mem_nil, or_false] at hr
  rcases hr with rfl | rfl | rfl | rfl | rfl | rfl | rfl | rfl | rfl | rfl | rfl | rfl | rfl | rfl |
    rfl | rfl | rfl | rfl
  -- the literals with characters of their own
  · exact .inr (.inr (.inr (hfirst _ (by decide))))
  · exact .inr (.inr (.inr (hfirst _ (by decide))))
  · exact .inr (.inr (.inr (hfirst _ (by decide))))
  -- the reserved words, and what starts with one
  · exact .inr (.inr (.inr (fails_word (.inl rfl) (w := "true") rfl (by decide) hx hrest)))
  · exact .inr (.inr (.inr (fails_word (.inl rfl) (w := "false") rfl (by decide) hx hrest)))
  · exact .inr (.inr (.inr (fails_word (.inl rfl) (w := "nil") rfl (by decide) hx hrest)))
  · exact .inr (.inr (.inr (fails_word (.inl rfl) (w := "self") rfl (by decide) hx hrest)))
  · exact .inr (.inr (.inr (.phrase rfl (.seqLeft
      (fails_word (r := .kwQuote) (.inr rfl) (w := "quote") rfl (by decide) hx hrest)))))
  · exact .inr (.inr (.inr (.phrase rfl (.seqLeft
      (fails_word (r := .kwIf) (.inr rfl) (w := "if") rfl (by decide) hx hrest)))))
  · exact .inr (.inr (.inr (.phrase rfl (.seqLeft
      (fails_word (r := .kwClass) (.inr rfl) (w := "class") rfl (by decide) hx hrest)))))
  · exact .inr (.inr (.inr (.phrase rfl (.seqLeft
      (fails_word (r := .kwDef) (.inr rfl) (w := "def") rfl (by decide) hx hrest)))))
  -- the others
  · exact .inr (.inr (.inr (hfirst _ (by decide))))
  · exact .inr (.inr (.inr (hfirst _ (by decide))))
  · exact .inr (.inr (.inr (hfirst _ (by decide))))
  · exact .inl rfl
  · exact .inr (.inl rfl)
  · exact .inr (.inr (.inr (hfirst _ (by decide))))
  · exact .inr (.inr (.inl rfl))

end Quasiquote
