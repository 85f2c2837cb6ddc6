import Quasiquote.Proofs.Grammar.Lexical

namespace Quasiquote

/-!
# Names — the words of each lexical rule

Every rule for a kind of name takes the longest word at its place, and the words it
takes are exactly those with the shape of that kind.

* `isName`, `isMember`, `isConstant`, `isMethodName` — the shapes;
* `Lexeme.name`, `Lexeme.constant`, … — a name of the shape is taken;
* `isName_of_take`, `isConstant_of_take`, … — what is taken has the shape.
-/

/-- A character of a class and then any characters that can stand in names. -/
def isWordFrom (first : Char → Bool) : List Char → Bool
  | c :: u => first c && u.all isIdent
  | [] => false

/-- A name of a variable, a parameter or a function. -/
def isName (s : String) : Bool :=
  isWordFrom (fun c => c.isLower || c == '_') s.toList && !reservedWords.contains s

/-- A name of a field. -/
def isMember (s : String) : Bool := isWordFrom (fun c => c.isAlpha || c == '_') s.toList

/-- A name of a class or a type. -/
def isConstant (s : String) : Bool := isWordFrom Char.isUpper s.toList

/-- The operators that can be defined and called by name. -/
def operatorNames : List String :=
  ["==", "!=", "<=", ">=", "<<", "<", ">", "+", "-", "*", "/", "%", "!"]

/-- A name of a method. -/
def isMethodName (s : String) : Bool := isMember s || operatorNames.contains s

theorem isAlpha_eq (c : Char) : c.isAlpha = (c.isUpper || c.isLower) := rfl

theorem isIdent_of_isLower {c : Char} (h : (c.isLower || c == '_') = true) : isIdent c = true := by
  simp only [isIdent, Char.isAlphanum, isAlpha_eq, Bool.or_eq_true] at h ⊢
  tauto

theorem isIdent_of_isAlpha {c : Char} (h : (c.isAlpha || c == '_') = true) : isIdent c = true := by
  simp only [isIdent, Char.isAlphanum, Bool.or_eq_true] at h ⊢
  tauto

theorem isIdent_of_isUpper {c : Char} (h : c.isUpper = true) : isIdent c = true := by
  simp [isIdent, Char.isAlphanum, isAlpha_eq, h]

theorem isWordFrom_eq_true {first : Char → Bool} {w : List Char} (h : isWordFrom first w = true) :
    ∃ c u, w = c :: u ∧ first c = true ∧ ∀ d ∈ u, isIdent d = true := by
  cases w with
  | nil => cases h
  | cons c u =>
    simp only [isWordFrom, Bool.and_eq_true, List.all_eq_true] at h
    exact ⟨c, u, rfl, h.1, h.2⟩

/-! ### Letters -/

/-- The small letters and the underscore, with which names start. -/
def nameStarts : List Char := "abcdefghijklmnopqrstuvwxyz_".toList

/-- The capital letters, with which constants start. -/
def upperLetters : List Char := "ABCDEFGHIJKLMNOPQRSTUVWXYZ".toList

/-- The digits. -/
def digitChars : List Char := "0123456789".toList

/-- A character of a range is one of those listed from its start. -/
theorem mem_range_of_toNat {c : Char} {start count : Nat} (h : start ≤ c.toNat)
    (h' : c.toNat < start + count) :
    c ∈ (List.range count).map fun k => Char.ofNat (start + k) := by
  refine List.mem_map.2 ⟨c.toNat - start, List.mem_range.2 (by omega), ?_⟩
  rw [Nat.add_sub_cancel' h, Char.ofNat_toNat]

theorem mem_nameStarts {c : Char} (h : (c.isLower || c == '_') = true) : c ∈ nameStarts := by
  rw [Bool.or_eq_true, beq_iff_eq] at h
  rcases h with h | rfl
  · have hrange : 97 ≤ c.toNat ∧ c.toNat < 97 + 26 := by
      have h : (decide (c.val ≥ 'a'.val) && decide (c.val ≤ 'z'.val)) = true := h
      simp only [Bool.and_eq_true, decide_eq_true_eq, ge_iff_le, UInt32.le_iff_toNat_le] at h
      show 97 ≤ c.val.toNat ∧ c.val.toNat < 97 + 26
      have : 'a'.val.toNat = 97 := rfl
      have : 'z'.val.toNat = 122 := rfl
      omega
    have hsub : ∀ c ∈ (List.range 26).map (fun k => Char.ofNat (97 + k)), c ∈ nameStarts := by
      decide
    exact hsub c (mem_range_of_toNat hrange.1 hrange.2)
  · decide

theorem mem_upperLetters {c : Char} (h : c.isUpper = true) : c ∈ upperLetters := by
  have hrange : 65 ≤ c.toNat ∧ c.toNat < 65 + 26 := by
    have h : decide (c.val ≥ 'A'.val ∧ c.val ≤ 'Z'.val) = true := h
    simp only [decide_eq_true_eq, ge_iff_le, UInt32.le_iff_toNat_le] at h
    show 65 ≤ c.val.toNat ∧ c.val.toNat < 65 + 26
    have : 'A'.val.toNat = 65 := rfl
    have : 'Z'.val.toNat = 90 := rfl
    omega
  have hsub : ∀ c ∈ (List.range 26).map (fun k => Char.ofNat (65 + k)), c ∈ upperLetters := by
    decide
  exact hsub c (mem_range_of_toNat hrange.1 hrange.2)

theorem mem_digitChars {c : Char} (h : c.isDigit = true) : c ∈ digitChars := by
  have hrange : 48 ≤ c.toNat ∧ c.toNat < 48 + 10 := by
    simp only [Char.isDigit, Bool.and_eq_true, decide_eq_true_eq, ge_iff_le,
      UInt32.le_iff_toNat_le] at h
    show 48 ≤ c.val.toNat ∧ c.val.toNat < 48 + 10
    have : '0'.val.toNat = 48 := rfl
    have : '9'.val.toNat = 57 := rfl
    omega
  have hsub : ∀ c ∈ (List.range 10).map (fun k => Char.ofNat (48 + k)), c ∈ digitChars := by
    decide
  exact hsub c (mem_range_of_toNat hrange.1 hrange.2)

/-- The characters with which the names of members start. -/
theorem mem_letters {c : Char} (h : (c.isAlpha || c == '_') = true) :
    c ∈ nameStarts ++ upperLetters := by
  simp only [isAlpha_eq, Bool.or_eq_true] at h
  rcases h with (h | h) | h
  · exact List.mem_append_right _ (mem_upperLetters h)
  · exact List.mem_append_left _ (mem_nameStarts (by simp [h]))
  · exact List.mem_append_left _ (mem_nameStarts (by simp [h]))

/-! ### Words are taken -/

section Forward

variable {first : Char → Bool} {w rest : List Char} {s : String}

theorem Lexeme.wordFrom (hw : isWordFrom first w = true) (hrest : Edge rest) :
    Lexeme (.seq (.char first) Rule.tail) w rest := by
  obtain ⟨c, u, rfl, hc, hu⟩ := isWordFrom_eq_true hw
  exact .seq (u := [c]) (.char hc _) (.tail hu hrest)

theorem isIdent_of_isName (h : isName s = true) : ∀ c ∈ s.toList, isIdent c = true := by
  simp only [isName, Bool.and_eq_true] at h
  obtain ⟨c, u, hs, hc, hu⟩ := isWordFrom_eq_true h.1
  rw [hs]
  intro d hd
  rcases List.mem_cons.1 hd with rfl | hd
  · exact isIdent_of_isLower hc
  · exact hu d hd

theorem NoLexeme.reserved_of_isName (h : isName s = true) (hrest : Edge rest) :
    NoLexeme (.rule .reserved) (s.toList ++ rest) := by
  refine .reserved (isIdent_of_isName h) hrest ?_
  simp only [isName, Bool.and_eq_true, Bool.not_eq_true', List.contains_eq_mem,
    decide_eq_false_iff_not] at h
  rw [String.ofList_toList]
  exact h.2

theorem Lexeme.name (h : isName s = true) (hrest : Edge rest) :
    Lexeme Rule.name.expression s.toList rest := by
  have hword : isWordFrom (fun c => c.isLower || c == '_') s.toList = true := by
    simp only [isName, Bool.and_eq_true] at h
    exact h.1
  exact .seq (u := []) (.refuse (.reserved_of_isName h hrest)) (.wordFrom hword hrest)

theorem Lexeme.functionName (h : isName s = true) (rest : List Char) :
    Lexeme Rule.functionName.expression s.toList ('(' :: rest) := by
  have hedge : Edge ('(' :: rest) := edge_cons (by decide) _
  have hword : isWordFrom (fun c => c.isLower || c == '_') s.toList = true := by
    simp only [isName, Bool.and_eq_true] at h
    exact h.1
  obtain ⟨c, u, hs, hc, hu⟩ := isWordFrom_eq_true hword
  have hreserved := NoLexeme.reserved_of_isName h hedge
  rw [hs] at hreserved ⊢
  refine .seq (u := []) (.refuse hreserved) ?_
  refine .seq (u := [c]) (.char hc _) ?_
  have htail := Lexeme.seq (b := .ahead (Peg.lit "(")) (v := []) (.tail hu hedge)
    (.ahead (.text ['('] rest))
  rwa [List.append_nil] at htail

theorem Lexeme.constant (h : isConstant s = true) (hrest : Edge rest) :
    Lexeme Rule.constant.expression s.toList rest := .wordFrom h hrest

theorem Lexeme.typeName (h : isConstant s = true) (hrest : Edge rest) :
    Lexeme Rule.typeName.expression s.toList rest := .wordFrom h hrest

theorem Lexeme.field (h : isMember s = true) (hrest : Edge rest) :
    Lexeme Rule.field.expression ('@' :: s.toList) rest :=
  .seq (u := ['@']) (.text ['@'] _) (.wordFrom h hrest)

/-- Nothing here continues a method name, whether it is a word or an operator. -/
def MethodEdge (rest : List Char) : Prop :=
  ∀ d v, rest = d :: v → isIdent d = false ∧ d ≠ '=' ∧ d ≠ '<'

theorem MethodEdge.edge (h : MethodEdge rest) : Edge rest := fun d v hd => (h d v hd).1

theorem methodEdge_nil : MethodEdge [] := fun _ _ h => by cases h

theorem methodEdge_cons {d : Char} (h : isIdent d = false ∧ d ≠ '=' ∧ d ≠ '<')
    (v : List Char) : MethodEdge (d :: v) := fun _ _ heq => by cases heq; exact h

theorem Lexeme.operatorName (h : operatorNames.contains s = true) (hrest : MethodEdge rest) :
    Lexeme (.rule .operatorName) s.toList rest := by
  refine .rule (by decide) (.texts ?_)
  have hmem : s ∈ operatorNames := by simpa using h
  have hnext : rest = [] ∨ ∃ d v, rest = d :: v ∧ '=' ≠ d ∧ '<' ≠ d := by
    cases rest with
    | nil => exact .inl rfl
    | cons d v => exact .inr ⟨d, v, rfl, (hrest d v rfl).2.1.symm, (hrest d v rfl).2.2.symm⟩
  simp only [operatorNames, List.mem_cons, List.not_mem_nil, or_false] at hmem
  rcases hnext with rfl | ⟨d, v, rfl, heq, hlt⟩
  · rcases hmem with rfl | rfl | rfl | rfl | rfl | rfl | rfl | rfl | rfl | rfl | rfl | rfl | rfl <;>
      decide
  · rcases hmem with rfl | rfl | rfl | rfl | rfl | rfl | rfl | rfl | rfl | rfl | rfl | rfl | rfl <;>
      simp [List.isPrefixOf, heq, hlt]

theorem Lexeme.methodName (h : isMethodName s = true) (hrest : MethodEdge rest) :
    Lexeme Rule.methodName.expression s.toList rest := by
  by_cases hmember : isMember s = true
  · exact .altLeft (.wordFrom hmember hrest.edge)
  · have hop : operatorNames.contains s = true := by
      simpa [isMethodName, hmember] using h
    refine .altRight (.seqLeft (.char fun d v hd => ?_)) (.operatorName hop hrest)
    have hfirst : ∀ t ∈ operatorNames, (t.toList.head?.map fun c => c.isAlpha || c == '_') =
        some false := by decide
    have hs := hfirst s (by simpa using hop)
    cases hlist : s.toList with
    | nil => rw [hlist] at hs; cases hs
    | cons c u =>
      rw [hlist] at hs hd
      cases hd
      simpa using hs

end Forward

/-! ### Nothing but words is taken -/

section Backward

variable {first : Char → Bool} {p q : Place} {xs : List (Phrase Rule)}

theorem take_char_eq_some {accepts : Char → Bool} {c : Context}
    (h : language.take c (.char accepts) p = some (xs, q)) :
    ∃ d v, p.rest = d :: v ∧ accepts d = true ∧ q = ⟨p.pos + d.utf8Size, v⟩ := by
  obtain ⟨pos, _ | ⟨d, v⟩⟩ := p
  · cases h
  · rw [Grammar.take_char] at h
    by_cases hd : accepts d = true
    · rw [if_pos hd] at h
      cases h
      exact ⟨d, v, rfl, hd, rfl⟩
    · rw [if_neg hd] at h
      cases h

/-- Any text is a word and then an edge. -/
theorem exists_edge (u : List Char) :
    ∃ w rest, u = w ++ rest ∧ (∀ c ∈ w, isIdent c = true) ∧ Edge rest := by
  refine ⟨u.takeWhile isIdent, u.dropWhile isIdent, (List.takeWhile_append_dropWhile).symm,
    fun c hc => (List.all_eq_true.1 List.all_takeWhile) c hc, fun d v hd => ?_⟩
  have := List.head?_dropWhile_not isIdent u
  rw [hd] at this
  simpa using this

theorem take_tail_eq_some (h : language.take .token Rule.tail p = some (xs, q)) :
    ∃ w, p.rest = w ++ q.rest ∧ q.pos = p.pos + Utf8.length w ∧
      (∀ c ∈ w, isIdent c = true) ∧ Edge q.rest := by
  obtain ⟨pos, u⟩ := p
  obtain ⟨w, rest, rfl, hw, hrest⟩ := exists_edge u
  rw [Lexeme.tail hw hrest pos] at h
  cases h
  exact ⟨w, rfl, rfl, hw, hrest⟩

/-- What a word rule takes is the longest word at its place. -/
theorem take_wordFrom_eq_some
    (h : language.take .token (.seq (.char first) Rule.tail) p = some (xs, q)) :
    ∃ w, p.rest = w ++ q.rest ∧ q.pos = p.pos + Utf8.length w ∧ isWordFrom first w = true ∧
      Edge q.rest := by
  obtain ⟨ys, q', zs, hchar, htail, rfl⟩ := Grammar.take_seq_eq_some.1 h
  obtain ⟨d, v, hp, hd, rfl⟩ := take_char_eq_some hchar
  obtain ⟨w, hw, hpos, hident, hedge⟩ := take_tail_eq_some htail
  refine ⟨d :: w, by rw [hp]; exact congrArg (d :: ·) hw, ?_, ?_, hedge⟩
  · rw [hpos]
    simp [Nat.add_assoc]
  · simp only [isWordFrom, Bool.and_eq_true, List.all_eq_true]
    exact ⟨hd, hident⟩

theorem isConstant_of_take (h : language.take .token Rule.constant.expression p = some (xs, q)) :
    isConstant (p.textTo q) = true := by
  obtain ⟨w, hw, hpos, hword, -⟩ := take_wordFrom_eq_some h
  rw [Place.textTo_eq hw hpos, isConstant, String.toList_ofList]
  exact hword

theorem isName_of_take (h : language.take .token Rule.name.expression p = some (xs, q)) :
    isName (p.textTo q) = true := by
  obtain ⟨ys, q', zs, hrefuse, hword, rfl⟩ := Grammar.take_seq_eq_some.1 h
  rw [Grammar.take_refuse] at hrefuse
  split at hrefuse
  · cases hrefuse
  · next hreserved =>
    cases hrefuse
    obtain ⟨w, hw, hpos, hfirst, hedge⟩ := take_wordFrom_eq_some hword
    rw [Language.next_token] at hw hpos
    rw [Place.textTo_eq hw hpos, isName, String.toList_ofList, Bool.and_eq_true]
    refine ⟨hfirst, ?_⟩
    by_contra hmem
    have hmem : String.ofList w ∈ reservedWords := by simpa using hmem
    have htake := Lexeme.reserved hmem hedge p.pos
    rw [String.toList_ofList, ← hw] at htake
    exact hreserved (by rw [htake]; rfl)

theorem isMember_of_take (h : language.take .token Rule.field.expression p = some (xs, q)) :
    isMember (String.ofList ((p.textTo q).toList.drop 1)) = true := by
  obtain ⟨ys, q', zs, hat, hword, rfl⟩ := Grammar.take_seq_eq_some.1 h
  rw [Peg.lit, Grammar.take_text, Option.map_eq_some_iff] at hat
  obtain ⟨q'', hskip, hq⟩ := hat
  cases hq
  obtain ⟨hrest, hpos'⟩ := Place.skipText_reaches hskip
  obtain ⟨w, hw, hpos, hfirst, -⟩ := take_wordFrom_eq_some hword
  rw [Language.next_token] at hw hpos
  have htext : p.textTo q = String.ofList ('@' :: w) := by
    refine Place.textTo_eq ?_ ?_
    · rw [hrest, hw]
      rfl
    · rw [hpos, hpos']
      exact Nat.add_assoc _ _ _
  rw [htext, String.toList_ofList, isMember, String.toList_ofList]
  exact hfirst

theorem isMethodName_of_take
    (h : language.take .token Rule.methodName.expression p = some (xs, q)) :
    isMethodName (p.textTo q) = true := by
  have h : language.take .token (.alt (.seq (Rule.start Char.isAlpha) Rule.tail)
    (.rule .operatorName)) p = some (xs, q) := h
  rw [Grammar.take_alt, Option.or_eq_some_iff] at h
  rcases h with hword | ⟨-, hop⟩
  · obtain ⟨w, hw, hpos, hfirst, -⟩ := take_wordFrom_eq_some hword
    rw [Place.textTo_eq hw hpos, isMethodName, isMember, String.toList_ofList,
      Bool.or_eq_true]
    exact .inl hfirst
  · rw [Language.take_of_token (by decide), Option.map_eq_some_iff] at hop
    obtain ⟨⟨ys, q'⟩, htexts, hq⟩ := hop
    cases hq
    obtain ⟨pos, u⟩ := p
    have htexts : language.take .token (Peg.alts (operatorNames.map Peg.lit)) ⟨pos, u⟩ =
      some (ys, q') := htexts
    rcases take_texts operatorNames pos u with hnone | ⟨w, hw, v, rfl, hsome⟩
    · rw [hnone] at htexts
      cases htexts
    · rw [hsome] at htexts
      cases htexts
      rw [Place.textTo_eq (u := w.toList) rfl rfl, String.ofList_toList, isMethodName,
        Bool.or_eq_true]
      exact .inr (by simpa using hw)

end Backward

end Quasiquote
