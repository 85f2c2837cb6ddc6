import Quasiquote.Proofs.Program.Bodies

namespace Quasiquote

/-!
# Arguments, blocks and calls

Arguments and parameters stand in parentheses with commas between them; a block stands
behind its call, and its statements stand on lines of their own.

* `Listed` — texts with commas between them, and `reads_listed` — how they read;
* `IsArg`, `IsArgs`, `IsBlock` — arguments and blocks;
* `IsChain.call` — a call on what stands before the point.
-/

open Peg (lit seqs alts)

variable {env : Reading} {s : Reading.Supply env} {u v post rest : List Char}
  {n : Node} {ns : List Node} {is js ks : List Nat} {sp : Span} {x : String}

/-! ### Commas -/

/-- A comma or a closing parenthesis comes next. -/
def Delimited (rest : List Char) : Prop := ∃ c v, rest = c :: v ∧ (c = ',' ∨ c = ')')

theorem Delimited.ends (h : Delimited rest) : Ends rest := by
  obtain ⟨c, v, rfl, rfl | rfl⟩ := h
  · exact .mark (by decide) v
  · exact .mark (by decide) v

/-- Texts that an expression reads in front of commas and a closing parenthesis, and
    what holds of the phrases that are left. -/
inductive Listed (e : Peg Rule) : List (List Char) → (List (Phrase Rule) → Prop) → Prop
  | nil {P : List (Phrase Rule) → Prop} (h : P []) : Listed e [] P
  | cons {u : List Char} {css : List (List Char)} {P Q R : List (Phrase Rule) → Prop}
    (hline : ∀ rest, Fails Rule.newline (u ++ rest))
    (h : ∀ rest, Delimited rest → Reads e u rest P) (hs : Listed e css Q)
    (hR : ∀ xs ys, P xs → Q ys → R (xs ++ ys)) : Listed e (u :: css) R

/-- Texts, each behind a comma. -/
def commaTail (css : List (List Char)) : List Char := css.flatMap fun u => ',' :: ' ' :: u

/-- Texts with commas between them. -/
def commaText : List (List Char) → List Char
  | [] => []
  | u :: css => u ++ commaTail css

theorem intercalate_eq_commaText (css : List (List Char)) :
    List.intercalate [',', ' '] css = commaText css := by
  induction css with
  | nil => rfl
  | cons u css ih =>
    cases css with
    | nil => simp [commaText, commaTail]
    | cons v css =>
      rw [List.intercalate_cons_cons, ih]
      simp [commaText, commaTail]

theorem delimited_commaTail (css : List (List Char)) (rest : List Char) :
    Delimited (commaTail css ++ ')' :: rest) := by
  cases css with
  | nil => exact ⟨')', rest, rfl, .inr rfl⟩
  | cons u css => exact ⟨',', _, rfl, .inl rfl⟩

variable {e : Peg Rule} {css : List (List Char)} {P : List (Phrase Rule) → Prop}

/-- A comma and a further text. -/
def nextListed (e : Peg Rule) : Peg Rule := seqs [.rule .newlines, lit ",", .rule .newlines, e]

theorem Listed.more (hne : e.mayBeEmpty Rule.empty = false) (h : Listed e css P)
    (rest : List Char) : More (nextListed e) (commaTail css) (')' :: rest) P := by
  induction h with
  | nil h =>
    have hfail : Fails (nextListed e) (')' :: rest) :=
      .seqRight (u := []) (.noNewlines (.first (by decide) (by decide) rest))
        (.seqLeft (.first (by decide) (by decide) rest))
    refine .mono (.nil hfail) ?_
    rintro phs rfl
    exact h
  | @cons u css P Q R hline h hs hR ih =>
    have hspace : Reads e (' ' :: u) (commaTail css ++ ')' :: rest) P :=
      .space (h _ (delimited_commaTail css rest))
    have hcomma : Reads (nextListed e) ([] ++ ([','] ++ ([] ++ ' ' :: u)))
        (commaTail css ++ ')' :: rest) _ :=
      .seq (.noNewlines (.first (by decide) (by decide) _))
        (.seq (.text (by decide) [] _) (.seq (.noNewlines (.space (hline _))) hspace))
    have hnonempty : (nextListed e).mayBeEmpty Rule.empty = false := by
      simp [nextListed, seqs, Peg.mayBeEmpty, hne]
    refine .mono (.cons hnonempty hcomma ih) ?_
    rintro phs ⟨xs, ys, rfl, ⟨as, bs, rfl, rfl, us, vs, rfl, rfl, zs, ws, rfl, rfl, hws⟩, hys⟩
    simpa using hR ws ys hws hys

/-- A list with commas in front of the closing parenthesis. -/
theorem reads_listed (hne : e.mayBeEmpty Rule.empty = false) (hfail : e.avoids ')' = true)
    (h : Listed e css P) (rest : List Char) :
    Reads (Rule.listed e) (commaText css) (')' :: rest) P := by
  cases h with
  | nil h =>
    refine .mono (.optNone (.seqLeft (.first (by decide) hfail rest))) ?_
    rintro phs rfl
    exact h
  | @cons u css P Q R hline h hs hR =>
    have hnonempty : (nextListed e).mayBeEmpty Rule.empty = false := by
      simp [nextListed, seqs, Peg.mayBeEmpty, hne]
    refine .mono (.opt (.seq (h _ (delimited_commaTail css rest))
      ((hs.more hne rest).reads hnonempty))) ?_
    rintro phs ⟨xs, ys, rfl, hxs, hys⟩
    exact hR xs ys hxs hys

theorem Listed.noNewline (h : Listed e css P) (rest : List Char) :
    Fails Rule.newline (commaText css ++ ')' :: rest) := by
  cases h with
  | nil => exact .first (by decide) (by decide) rest
  | cons hline =>
    rw [commaText, List.append_assoc]
    exact hline _

/-- A list with commas, in parentheses. -/
theorem reads_parenList (hne : e.mayBeEmpty Rule.empty = false) (hfail : e.avoids ')' = true)
    (h : Listed e css P) (rest : List Char) :
    Reads (seqs [lit "(", .rule .newlines, Rule.listed e, .rule .newlines, lit ")"])
      ('(' :: (commaText css ++ [')'])) rest P := by
  have hclose : Reads (seqs [.rule .newlines, lit ")"]) ([] ++ [')']) rest _ :=
    .seq (.noNewlines (.first (by decide) (by decide) rest)) (.text (by decide) [] rest)
  have hlist : Reads (seqs [Rule.listed e, .rule .newlines, lit ")"])
      (commaText css ++ ([] ++ [')'])) rest _ := .seq (reads_listed hne hfail h rest) hclose
  have hopen : Reads (seqs [lit "(", .rule .newlines, Rule.listed e, .rule .newlines, lit ")"])
      (['('] ++ ([] ++ (commaText css ++ ([] ++ [')'])))) rest _ :=
    .seq (.text (by decide) [] _) (.seq (.noNewlines (by simpa using h.noNewline rest)) hlist)
  simp only [List.nil_append, List.singleton_append] at hopen
  refine .mono hopen ?_
  rintro phs ⟨as, bs, rfl, rfl, us, vs, rfl, rfl, zs, ws, rfl, hzs, is, js, rfl, rfl, rfl⟩
  simpa using hzs

/-! ### Arguments -/

variable (s) in
/-- A text that reads as an argument of a call. -/
structure IsArg (u : List Char) (n : Node) (is : List Nat) : Prop where
  noNewline (rest : List Char) : Fails Rule.newline (u ++ rest)
  reads {rest : List Char} (h : Delimited rest) :
    Reads (.rule .callArg) u rest (One s [.assignment, .ternary, .blockArg] n is)

theorem IsExpr.arg (h : IsExpr s u n is) : IsArg s u n is where
  noNewline rest := (h.head.append rest).noNewline
  reads {rest} hrest := by
    have hblock : Fails (.rule .blockArg) (u ++ rest) :=
      .phrase rfl (.seqLeft ((h.head.append rest).fails_text (by decide)))
    refine .inline rfl (.altRight hblock (.mono (h.reads hrest.ends) ?_))
    rintro phs ⟨r, sp, t, parts, hr, rfl, hstands⟩
    have hmem : ∀ r ∈ [Rule.assignment, .ternary], r ∈ [Rule.assignment, .ternary, .blockArg] := by
      decide
    exact ⟨r, sp, t, parts, hmem r hr, rfl, hstands⟩

variable (s) in
/-- Texts that read as the arguments of a call. -/
inductive IsArgs : List (List Char) → List Node → List Nat → Prop
  | nil : IsArgs [] [] []
  | cons {u : List Char} {css : List (List Char)} {n : Node} {ns : List Node} {is js : List Nat}
    (h : IsArg s u n is) (hs : IsArgs css ns js) : IsArgs (u :: css) (n :: ns) (is ++ js)

theorem IsArgs.listed (h : IsArgs s css ns is) :
    Listed (.rule .callArg) css fun phs => s.StandAll phs ns is := by
  induction h with
  | nil => exact .nil .nil
  | cons h hs ih =>
    exact .cons h.noNewline (fun rest hrest => h.reads hrest) ih fun xs ys hxs hys =>
      hxs.standAll hys

/-- The arguments of a call, in parentheses. -/
theorem IsArgs.reads (h : IsArgs s css ns is) (rest : List Char) :
    Reads (.rule .callArgs) ('(' :: (commaText css ++ [')'])) rest fun phs =>
      ∃ sp parts, phs = [⟨.callArgs, sp, "", parts⟩] ∧ s.StandAll parts ns is :=
  .phrase rfl (reads_parenList (by decide) (by decide) h.listed rest)

/-! ### Names -/

theorem solid_of_isWordFrom {first : Char → Bool} {w : List Char}
    (hfirst : ∀ c, first c = true → isIdent c = true) (h : isWordFrom first w = true) :
    w.head?.any Blank.solid = true := by
  obtain ⟨c, u, rfl, hc, -⟩ := isWordFrom_eq_true h
  exact solid_of_isIdent (hfirst c hc)

theorem solid_of_isName (h : isName x = true) : x.toList.head?.any Blank.solid = true := by
  simp only [isName, Bool.and_eq_true] at h
  exact solid_of_isWordFrom (fun _ => isIdent_of_isLower) h.1

theorem Reads.name (h : isName x = true) (hrest : Edge rest) :
    Reads (.rule .name) x.toList rest fun phs => ∃ sp, phs = [⟨.name, sp, x, []⟩] :=
  .tokenText rfl (solid_of_isName h) (.name h hrest)

theorem Reads.functionName (h : isName x = true) (rest : List Char) :
    Reads (.rule .functionName) x.toList ('(' :: rest) fun phs =>
      ∃ sp, phs = [⟨.functionName, sp, x, []⟩] :=
  .tokenText rfl (solid_of_isName h) (.functionName h rest)

theorem Reads.constant (h : isConstant x = true) (hrest : Edge rest) :
    Reads (.rule .constant) x.toList rest fun phs => ∃ sp, phs = [⟨.constant, sp, x, []⟩] :=
  .tokenText rfl (solid_of_isWordFrom (fun _ => isIdent_of_isUpper) h) (.constant h hrest)

theorem Reads.typeName (h : isConstant x = true) (hrest : Edge rest) :
    Reads (.rule .typeName) x.toList rest fun phs => ∃ sp, phs = [⟨.typeName, sp, x, []⟩] :=
  .tokenText rfl (solid_of_isWordFrom (fun _ => isIdent_of_isUpper) h) (.typeName h hrest)

theorem Reads.methodName (h : isMethodName x = true) (hrest : MethodEdge rest) :
    Reads (.rule .methodName) x.toList rest fun phs => ∃ sp, phs = [⟨.methodName, sp, x, []⟩] := by
  refine .tokenText rfl ?_ (.methodName h hrest)
  simp only [isMethodName, Bool.or_eq_true] at h
  rcases h with h | h
  · exact solid_of_isWordFrom (fun _ => isIdent_of_isAlpha) h
  · have hall : ∀ op ∈ operatorNames, op.toList.head?.any Blank.solid = true := by decide
    exact hall x (by simpa using h)

/-- A method name starts with neither a digit nor a newline. -/
theorem exists_methodName_head (h : isMethodName x = true) :
    ∃ c u, x.toList = c :: u ∧ c.isDigit = false ∧ Blank.solid c = true ∧
      Rule.newline.avoids c = true := by
  have hletters : ∀ c ∈ nameStarts ++ upperLetters, c.isDigit = false ∧ Blank.solid c = true ∧
      Rule.newline.avoids c = true := by decide
  simp only [isMethodName, Bool.or_eq_true] at h
  rcases h with h | h
  · obtain ⟨c, u, hx, hc, -⟩ := isWordFrom_eq_true h
    exact ⟨c, u, hx, hletters c (mem_letters hc)⟩
  · have hall : ∀ op ∈ operatorNames, op.toList.head?.any (fun c =>
        !c.isDigit && Blank.solid c && Rule.newline.avoids c) = true := by decide
    have hop := hall x (by simpa using h)
    cases hx : x.toList with
    | nil => rw [hx] at hop; cases hop
    | cons c u =>
      rw [hx] at hop
      simp only [List.head?_cons, Option.any_some, Bool.and_eq_true, Bool.not_eq_true'] at hop
      exact ⟨c, u, rfl, hop.1.1, hop.1.2, hop.2⟩

/-! ### Blocks -/

theorem Items.opens (h : Items s u ns is) (hpost : IsSep post) (rest : List Char) :
    Ends ((u ++ post) ++ rest) := by
  rw [List.append_assoc]
  exact h.ends (hpost.ends rest)

/-- Statements on lines of their own, in front of what ends a body. -/
theorem Items.body (h : Items s u ns is) (hpost : IsSep post) (hsep : Fails breakMark rest)
    (hexpr : Fails (.rule .expr) rest) :
    Reads (.rule .body) (u ++ post) rest (One s [.body] ⟨sp, .body ns⟩ is) := by
  cases h with
  | nil => exact reads_body_nil (.inr hpost) hsep hexpr
  | @cons sep u v n ns is js hopen h hs =>
    have hbody : Reads (.rule .body) (sep ++ ((u ++ v) ++ post)) rest
        (One s [.body] ⟨sp, .body (n :: ns)⟩ (is ++ js)) :=
      reads_body (.inr hopen) h.head (h.reads (hs.ends (hpost.ends rest))) hs
        (.sep hpost hsep hexpr)
    simpa only [List.append_assoc] using hbody

/-- The parameters of a block, as they are written behind its start. -/
def blockParamText (ps : List String) : List Char :=
  if ps.isEmpty then [] else [' ', '|'] ++ (commaText (ps.map String.toList) ++ ['|'])

/-- Names with commas between them, in front of a bar. -/
theorem reads_nameTail {ps : List String} (hps : ∀ x ∈ ps, isName x = true) (rest : List Char) :
    More (seqs [lit ",", .rule .name]) (commaTail (ps.map String.toList)) ('|' :: rest) fun phs =>
      phs.map Phrase.text = ps := by
  induction ps with
  | nil =>
    refine .mono (.nil (.seqLeft (.first (by decide) (by decide) rest))) ?_
    rintro phs rfl
    rfl
  | cons x ps ih =>
    have hedge : Edge (commaTail (ps.map String.toList) ++ '|' :: rest) := by
      cases ps with
      | nil => exact edge_cons (by decide) _
      | cons y ps => exact edge_cons (by decide) _
    have hname : Reads (seqs [lit ",", .rule .name]) ([','] ++ ' ' :: x.toList)
        (commaTail (ps.map String.toList) ++ '|' :: rest) _ :=
      .seq (.text (by decide) [] _) (.space (.name (hps x List.mem_cons_self) hedge))
    refine .mono (.cons (by decide) hname (ih fun y hy => hps y (List.mem_cons_of_mem _ hy))) ?_
    rintro phs ⟨xs, ys, rfl, ⟨as, bs, rfl, rfl, sp, rfl⟩, hys⟩
    simp [Phrase.text, hys]

theorem reads_blockParams {ps : List String} (hps : ∀ x ∈ ps, isName x = true)
    (hrest : Fails (.rule .blockParams) rest) :
    Reads (.opt (.rule .blockParams)) (blockParamText ps) rest fun phs =>
      ∃ sp names, phs = Reading.Supply.blockParamPhrases sp names ∧ names.map Phrase.text = ps := by
  cases ps with
  | nil =>
    refine .mono (.optNone hrest) ?_
    rintro phs rfl
    exact ⟨Span.zero, [], rfl, rfl⟩
  | cons x ps =>
    have hedge : Edge (commaTail (ps.map String.toList) ++ '|' :: rest) := by
      cases ps with
      | nil => exact edge_cons (by decide) _
      | cons y ps => exact edge_cons (by decide) _
    have htail := reads_nameTail (fun y hy => hps y (List.mem_cons_of_mem _ hy)) rest
    have hnames : Reads (.opt (seqs [.rule .name, .many (seqs [lit ",", .rule .name])]))
        (x.toList ++ commaTail (ps.map String.toList)) ('|' :: rest) _ :=
      .opt (.seq (.name (hps x List.mem_cons_self) hedge) (htail.reads (by decide)))
    have hall : Reads Rule.blockParams.expression
        (['|'] ++ ((x.toList ++ commaTail (ps.map String.toList)) ++ ['|'])) rest _ :=
      .seq (.text (by decide) [] _) (.seq hnames (.text (by decide) [] rest))
    refine .mono (.space (.opt (.phrase rfl hall))) ?_
    rintro phs ⟨sp, parts, rfl, as, bs, rfl, rfl, us, vs, rfl, ⟨ns, ms, rfl, ⟨sp', rfl⟩, hms⟩, rfl⟩
    refine ⟨sp, ⟨.name, sp', x, []⟩ :: ms, ?_, ?_⟩
    · simp [Reading.Supply.blockParamPhrases]
    · simp [Phrase.text, hms]

variable (s) in
/-- A text that reads as the block of a call. -/
structure IsBlock (u : List Char) (b : Node) (is : List Nat) : Prop where
  head : ∃ v, u = ' ' :: '\x7b' :: v ∨ u = ' ' :: 'd' :: v
  reads {rest : List Char} (h : Edge rest) :
    Reads (.rule .anyBlock) u rest (One s [.braceBlock, .doBlock] b is)

section Blocks

variable {ps : List String}

theorem Items.noBlockParams (h : Items s u ns is) (hpost : IsSep post) (rest : List Char) :
    Fails (.rule .blockParams) ((u ++ post) ++ rest) :=
  (h.opens hpost rest).fails (by decide)

theorem IsBlock.brace (hps : ∀ x ∈ ps, isName x = true) (h : Items s u ns is) (hpost : IsSep post) :
    IsBlock s (' ' :: '\x7b' :: (blockParamText ps ++ ((u ++ post) ++ ['\x7d'])))
      ⟨sp, .block ps ⟨sp, .body ns⟩ true⟩ is where
  head := ⟨_, .inl rfl⟩
  reads {rest} _ := by
    have hbody : Reads (.rule .body) (u ++ post) ('\x7d' :: rest) (One s [.body] ⟨sp, .body ns⟩ is) :=
      h.body hpost (.first (by decide) (by decide) _) (.first (by decide) (by decide) _)
    have hinner : Reads (seqs [.rule .body, lit "\x7d"]) ((u ++ post) ++ ['\x7d']) rest _ :=
      .seq hbody (.text (by decide) [] rest)
    have hnoParams : Fails (.rule .blockParams) (((u ++ post) ++ ['\x7d']) ++ rest) := by
      rw [List.append_assoc]
      exact h.noBlockParams hpost _
    have hparams := reads_blockParams hps hnoParams
    have hall : Reads Rule.braceBlock.expression
        (['\x7b'] ++ (blockParamText ps ++ ((u ++ post) ++ ['\x7d']))) rest _ :=
      .seq (.text (by decide) [] _) (.seq hparams hinner)
    refine .space (.inline rfl (.altLeft (.mono (.phrase rfl hall) ?_)))
    rintro phs ⟨sp', parts, rfl, as, bs, rfl, rfl, us, vs, rfl, ⟨sp'', names, rfl, hnames⟩, zs, ws,
      rfl, ⟨r, spb, t, parts, -, rfl, hstands⟩, rfl⟩
    refine ⟨.braceBlock, sp', "", _, by decide, rfl, ?_⟩
    rw [← hnames]
    simpa using hstands.braceBlock

theorem IsBlock.doEnd (hps : ∀ x ∈ ps, isName x = true) (h : Items s u ns is) (hpost : IsSep post) :
    IsBlock s (' ' :: 'd' :: 'o' :: (blockParamText ps ++ ((u ++ post) ++ ['e', 'n', 'd'])))
      ⟨sp, .block ps ⟨sp, .body ns⟩ false⟩ is where
  head := ⟨_, .inr rfl⟩
  reads {rest} hrest := by
    have hend : Lexeme Rule.kwEnd.expression ['e', 'n', 'd'] rest := .word "end" hrest
    have hbody : Reads (.rule .body) (u ++ post) (['e', 'n', 'd'] ++ rest)
        (One s [.body] ⟨sp, .body ns⟩ is) :=
      h.body hpost (.first (by decide) (by decide) _)
        (fails_expr_stopWord (w := "end") (by decide) hrest)
    have hinner : Reads (seqs [.rule .body, .rule .kwEnd]) ((u ++ post) ++ ['e', 'n', 'd']) rest _ :=
      .seq hbody (.keyword rfl (by decide) hend)
    have hnoParams : Fails (.rule .blockParams) (((u ++ post) ++ ['e', 'n', 'd']) ++ rest) := by
      rw [List.append_assoc]
      exact h.noBlockParams hpost _
    have hparams := reads_blockParams hps hnoParams
    have hedge : Edge ((blockParamText ps ++ ((u ++ post) ++ ['e', 'n', 'd'])) ++ rest) := by
      cases ps with
      | nil =>
        have hends : Ends ((u ++ post) ++ (['e', 'n', 'd'] ++ rest)) := h.opens hpost _
        rw [← List.append_assoc] at hends
        exact (Boundary.ends hends).edge
      | cons x ps => exact edge_cons (by decide) _
    have hdo : Lexeme Rule.kwDo.expression ['d', 'o'] _ := .word "do" hedge
    have hall : Reads Rule.doBlock.expression
        (['d', 'o'] ++ (blockParamText ps ++ ((u ++ post) ++ ['e', 'n', 'd']))) rest _ :=
      .seq (.keyword rfl (by decide) hdo) (.seq hparams hinner)
    refine .space (.inline rfl (.altRight (.first (by decide) (by decide) _)
      (.mono (.phrase rfl hall) ?_)))
    rintro phs ⟨sp', parts, rfl, as, bs, rfl, rfl, us, vs, rfl, ⟨sp'', names, rfl, hnames⟩, zs, ws,
      rfl, ⟨r, spb, t, parts, -, rfl, hstands⟩, rfl⟩
    refine ⟨.doBlock, sp', "", _, by decide, rfl, ?_⟩
    rw [← hnames]
    simpa using hstands.doBlock

end Blocks

/-! ### Calls -/

section Calls

variable {n' : Node} {is' : List Nat}

/-- Whatever makes up a chain of calls makes another one with a suffix behind it. -/
theorem IsChain.suffixed (h : IsChain s u n is) {c : Char} (hc : c.isDigit = false)
    (hsuffix : ∀ rest, Boundary rest → Reads Rule.suffix.expression ('.' :: c :: v) rest fun phs =>
      ∀ sp first xs, s.Chained first xs n is →
        s.Chained first (xs ++ [⟨.suffix, sp, "", phs⟩]) n' is') :
    IsChain s (u ++ '.' :: c :: v) n' is' where
  head := h.head.append _
  noSign rest := by
    rw [List.append_assoc]
    exact h.noSign _
  noAssign {rest} _ := by
    rw [List.append_assoc]
    exact h.noAssign (.point hc _)
  reads {es rest Q} hboundary hmore := by
    have hmore' := More.cons (by decide) (.phrase rfl (hsuffix _ hboundary)) hmore
    have hchain := h.reads (.point hc (v ++ es ++ rest)) hmore'
    rw [List.append_assoc]
    refine .mono hchain ?_
    rintro phs ⟨ph, xs, ys, rfl, hchained, us, vs, rfl, ⟨sp, parts, rfl, hparts⟩, hQ⟩
    refine ⟨ph, xs ++ [⟨.suffix, sp, "", parts⟩], vs, ?_, hparts sp ph xs hchained, hQ⟩
    simp

variable (s) in
/-- A text that reads as the arguments of a call, if there are any. -/
inductive TakesArgs : List Char → List Node → List Nat → Prop
  | none : TakesArgs [] [] []
  | list {css : List (List Char)} {ns : List Node} {js : List Nat} (h : IsArgs s css ns js) :
    TakesArgs ('(' :: (commaText css ++ [')'])) ns js

variable (s) in
/-- A text that reads as the block of a call, if there is one. -/
inductive TakesBlock : List Char → Option Node → List Nat → Prop
  | none : TakesBlock [] none []
  | block {bs : List Char} {b : Node} {ks : List Nat} (h : IsBlock s bs b ks) :
    TakesBlock bs (some b) ks

variable {as bs : List Char} {b : Option Node}

theorem IsBlock.head_fails {b : Node} (h : IsBlock s bs b ks) {e : Peg Rule}
    (he : e.avoids '\x7b' = true ∧ e.avoids 'd' = true) (rest : List Char) :
    Fails e (bs ++ rest) := by
  obtain ⟨v, rfl | rfl⟩ := h.head
  · exact .space (.first (by decide) he.1 _)
  · exact .space (.first (by decide) he.2 _)

theorem TakesBlock.noArgs (h : TakesBlock s bs b ks) (hrest : Boundary rest) :
    Fails (.rule .callArgs) (bs ++ rest) := by
  cases h with
  | none => exact hrest.noArgs
  | block h => exact h.head_fails (by decide) rest

theorem TakesBlock.methodEdge (h : TakesBlock s bs b ks) (hrest : Boundary rest) :
    MethodEdge (bs ++ rest) := by
  cases h with
  | none => exact hrest.methodEdge
  | block h =>
    obtain ⟨v, rfl | rfl⟩ := h.head
    · exact methodEdge_cons (by decide) _
    · exact methodEdge_cons (by decide) _

theorem TakesArgs.methodEdge (h : TakesArgs s as ns js) {v : List Char} (hrest : MethodEdge v) :
    MethodEdge (as ++ v) := by
  cases h with
  | none => exact hrest
  | list => exact methodEdge_cons (by decide) _

/-- The name of a method and what the call takes. -/
theorem reads_suffix {A B : List (Phrase Rule) → Prop} (hx : isMethodName x = true)
    (hargs : Reads (.opt (.rule .callArgs)) as (bs ++ rest) A)
    (hblock : Reads (.opt (.rule .anyBlock)) bs rest B) (hedge : MethodEdge (as ++ (bs ++ rest))) :
    Reads Rule.suffix.expression ('.' :: (x.toList ++ (as ++ bs))) rest fun phs =>
      ∃ sp us vs, phs = ⟨.methodName, sp, x, []⟩ :: (us ++ vs) ∧ A us ∧ B vs := by
  obtain ⟨c, u, hlist, -, hsolid, havoid⟩ := exists_methodName_head hx
  have hline : Fails Rule.newline ((x.toList ++ (as ++ bs)) ++ rest) := by
    rw [hlist]
    exact .first hsolid havoid _
  have hname : Reads (.rule .methodName) x.toList ((as ++ bs) ++ rest) _ :=
    .methodName hx (by rwa [List.append_assoc])
  have hall : Reads Rule.suffix.expression (['.'] ++ ([] ++ (x.toList ++ (as ++ bs)))) rest _ :=
    .seq (.text (by decide) [] _) (.seq (.noNewlines hline) (.seq hname (.seq hargs hblock)))
  refine .mono hall ?_
  rintro phs ⟨ps, qs, rfl, rfl, us, vs, rfl, rfl, zs, ws, rfl, ⟨sp, rfl⟩, os, rs, rfl, hos, hrs⟩
  exact ⟨sp, os, rs, rfl, hos, hrs⟩

theorem reads_noArgs (h : TakesBlock s bs b ks) (hrest : Boundary rest) :
    Reads (.opt (.rule .callArgs)) [] (bs ++ rest) (· = []) := .optNone (h.noArgs hrest)

/-- A call on what stands before the point. -/
theorem IsChain.call (h : IsChain s u n is) (hx : isMethodName x = true)
    (hargs : TakesArgs s as ns js) (hblock : TakesBlock s bs b ks) :
    IsChain s (u ++ '.' :: (x.toList ++ (as ++ bs))) ⟨sp, .call n x ns b⟩ (is ++ (js ++ ks)) := by
  obtain ⟨c, v, hlist, hc, -, -⟩ := exists_methodName_head hx
  have hcons : x.toList ++ (as ++ bs) = c :: (v ++ (as ++ bs)) := by rw [hlist]; rfl
  rw [hcons]
  refine h.suffixed hc fun rest hrest => ?_
  rw [← hcons]
  have hedge := hargs.methodEdge (hblock.methodEdge hrest)
  cases hargs with
  | none =>
    cases hblock with
    | none =>
      refine .mono (reads_suffix hx (reads_noArgs (s := s) .none hrest) (.optNone hrest.noBlock) hedge) ?_
      rintro phs ⟨sp', us, vs, rfl, rfl, rfl⟩ sp'' first xs hchained
      simpa using hchained.bare
    | block hb =>
      refine .mono (reads_suffix hx (reads_noArgs (.block hb) hrest) (.opt (hb.reads hrest.edge)) hedge) ?_
      rintro phs ⟨sp', us, vs, rfl, rfl, r, spb, t, parts, hr, rfl, hstands⟩ sp'' first xs hchained
      have hne : r ≠ .callArgs := by
        rintro rfl
        revert hr
        decide
      simpa using hchained.block hne hstands
  | list hargs =>
    cases hblock with
    | none =>
      refine .mono (reads_suffix hx (.opt (hargs.reads _)) (.optNone hrest.noBlock) hedge) ?_
      rintro phs ⟨sp', us, vs, rfl, ⟨spa, parts, rfl, hall⟩, rfl⟩ sp'' first xs hchained
      simpa using hchained.args hall
    | block hb =>
      refine .mono (reads_suffix hx (.opt (hargs.reads _)) (.opt (hb.reads hrest.edge)) hedge) ?_
      rintro phs ⟨sp', us, vs, rfl, ⟨spa, parts, rfl, hall⟩, r, spb, t, bparts, -, rfl, hstands⟩
        sp'' first xs hchained
      simpa using hchained.argsBlock hall hstands

end Calls

end Quasiquote
