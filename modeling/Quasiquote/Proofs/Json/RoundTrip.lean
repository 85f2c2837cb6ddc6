import Quasiquote.Proofs.Json.Number

namespace Quasiquote

/-!
# Values read back

The text of a value, one entry to a line, is read as the same value, where every number has
become what its own text is read as.  So nothing that is stored is lost but the last digits of
a float, and a value without floats comes back as it was.

* `Json.reread` — the value that comes back;
* `Json.parse_pretty` — it is what the text is read as.
-/

namespace Json

/-! ### Strings -/

theorem hexFour_hexDigit : ∀ n < 32,
    hexFour '0' '0' (hexDigit (n / 16)) (hexDigit (n % 16)) = some n := by
  decide

/-- A character inside a string is read as itself. -/
theorem stringBody_escapeChar (c : Char) (cs : List Char) :
    stringBody (escapeChar c ++ cs) = goOn c (stringBody cs) := by
  unfold escapeChar
  split
  · rfl
  · rfl
  · rfl
  · rfl
  · rfl
  · rename_i hquote hbackslash _ _ _
    split
    · rename_i h
      have hc : Char.ofNat 8 = c := by rw [← h, Char.ofNat_toNat]
      rw [← hc]
      rfl
    · split
      · rename_i h
        have hc : Char.ofNat 12 = c := by rw [← h, Char.ofNat_toNat]
        rw [← hc]
        rfl
      · split
        · rename_i hcontrol
          have hhex := hexFour_hexDigit c.toNat hcontrol
          simp only [List.cons_append, List.nil_append]
          rw [stringBody, hhex]
          dsimp only
          rw [if_pos (by simp; omega), Char.ofNat_toNat]
        · rename_i hcontrol
          show stringBody (c :: cs) = _
          conv => lhs; unfold stringBody
          split
          · rename_i h
            exact absurd (List.cons.inj h).1 hquote
          · rename_i h
            exact absurd (List.cons.inj h).1 hbackslash
          · rename_i h
            exact absurd (List.cons.inj h).1 hbackslash
          · rename_i h
            cases h
            refine if_neg fun hspecial => ?_
            rcases Bool.or_eq_true _ _ ▸ hspecial with hlow | hsame
            · exact hcontrol (of_decide_eq_true hlow)
            · exact hbackslash (beq_iff_eq.1 hsame)
          · rename_i h
            cases h

/-- The inside of a string is read as the string. -/
theorem string_flatMap_escapeChar (s : String) (rest : List Char) :
    string (s.toList.flatMap escapeChar ++ '"' :: rest) = some (some s, rest) := by
  have hbody (cs : List Char) :
      stringBody (cs.flatMap escapeChar ++ '"' :: rest) = some (some cs, rest) := by
    induction cs with
    | nil => rw [List.flatMap_nil, List.nil_append, stringBody]
    | cons c cs ih =>
      rw [List.flatMap_cons, List.append_assoc, stringBody_escapeChar, ih]
      rfl
  simp [string, hbody]

theorem toList_quote (s : String) :
    (quote s).toList = '"' :: (s.toList.flatMap escapeChar ++ ['"']) := by
  rw [quote, String.toList_ofList]

/-! ### Blanks -/

/-- Whether a text does not begin with a blank. -/
def Solid : List Char → Prop
  | [] => True
  | c :: _ => (c == ' ' || c == '\n' || c == '\t' || c == '\r') = false

theorem skipBlanks_of_solid {cs : List Char} (h : Solid cs) : skipBlanks cs = cs := by
  cases cs with
  | nil => rfl
  | cons c cs =>
    unfold skipBlanks
    rw [List.dropWhile_cons_of_neg]
    rw [show _ = false from h]
    exact Bool.false_ne_true

theorem toList_lineBreak (depth : Nat) :
    (lineBreak depth).toList = '\n' :: List.replicate (2 * depth) ' ' := by
  rw [lineBreak, String.toList_ofList]

/-- A line break and the blanks behind it are skipped. -/
theorem skipBlanks_lineBreak (depth : Nat) (cs : List Char) :
    skipBlanks ((lineBreak depth).toList ++ cs) = skipBlanks cs := by
  rw [toList_lineBreak]
  unfold skipBlanks
  rw [List.dropWhile_append_of_pos]
  intro c hc
  rcases List.mem_cons.1 hc with rfl | hc
  · rfl
  · rw [List.eq_of_mem_replicate hc]
    rfl

/-! ### What comes back -/

/-- What the text of a number is read as. -/
def numeral (text : String) : Json := ((number text.toList).map Prod.fst).getD .null

mutual

/-- The value that a text is read as, given the value that it was written for. -/
def reread : Json → Json
  | .int i => numeral (toString i)
  | .float x => numeral (floatText x)
  | .arr items => .arr (rereadAll items)
  | .obj fields => .obj (rereadFields fields)
  | .unreadable => .null
  | .null => .null
  | .bool b => .bool b
  | .str s => .str s

/-- Several values that come back. -/
def rereadAll : List Json → List Json
  | [] => []
  | v :: vs => reread v :: rereadAll vs

/-- Several fields that come back. -/
def rereadFields : List (String × Json) → List (String × Json)
  | [] => []
  | (k, v) :: fs => (k, reread v) :: rereadFields fs

end

theorem rereadAll_eq_map (vs : List Json) : rereadAll vs = vs.map reread := by
  induction vs with
  | nil => rfl
  | cons v vs ih => rw [rereadAll, ih, List.map_cons]

theorem numeral_of_readsAs {text : String} {v : Json} (h : ReadsAs text.toList v) :
    numeral text = v := by
  have := h [] trivial
  rw [List.append_nil] at this
  rw [numeral, this]
  rfl

/-- Integers of sixty-four bits come back as they were. -/
theorem reread_int {i : Int} (hlow : -Word.bound ≤ i) (hhigh : i < Word.count) :
    reread (.int i) = .int i := by
  rw [reread]
  exact numeral_of_readsAs (readsAs_int hlow hhigh)

/-! ### Blanks in front of values -/

theorem skipBlanks_skipBlanks (cs : List Char) : skipBlanks (skipBlanks cs) = skipBlanks cs :=
  List.dropWhile_idempotent _ _

/-- Values are read behind blanks. -/
theorem value_congr (fuel : Nat) {cs cs' : List Char} (h : skipBlanks cs = skipBlanks cs') :
    value fuel cs = value fuel cs' := by
  cases fuel with
  | zero => simp only [value]
  | succ fuel => simp only [value, h]

theorem items_congr (fuel : Nat) {cs cs' : List Char} (h : skipBlanks cs = skipBlanks cs') :
    items fuel cs = items fuel cs' := by
  cases fuel with
  | zero => simp only [items]
  | succ fuel => simp only [items, value_congr fuel h]

theorem fields_congr (fuel : Nat) {cs cs' : List Char} (h : skipBlanks cs = skipBlanks cs') :
    fields fuel cs = fields fuel cs' := by
  cases fuel with
  | zero => simp only [fields]
  | succ fuel => simp only [fields, h]

/-! ### Numbers among values -/

/-- What is a number begins like one. -/
theorem exists_of_number {cs : List Char} {p : Json × List Char} (h : number cs = some p) :
    ∃ c cs', cs = c :: cs' ∧ (c.isDigit = true ∨ c = '-') := by
  unfold number at h
  split at h
  · exact ⟨_, _, rfl, .inr rfl⟩
  · unfold unsigned at h
    split at h
    · exact ⟨_, _, rfl, .inl rfl⟩
    · split at h
      · cases h
      · rename_i hnext
        cases cs with
        | nil => exact absurd rfl hnext
        | cons c cs => exact ⟨c, cs, rfl, .inl (by simpa [digitNext] using hnext)⟩

/-- What begins like a number is a number, if it is a value. -/
theorem value_of_number {cs : List Char} {p : Json × List Char} (h : number cs = some p)
    (fuel : Nat) : value (fuel + 1) cs = some p := by
  obtain ⟨c, cs, rfl, hc⟩ := exists_of_number h
  have hne (d : Char) (hd : d.isDigit = false) (hd' : d ≠ '-') : c ≠ d := by
    rintro rfl
    rcases hc with hc | hc
    · rw [hd] at hc
      cases hc
    · exact hd' hc
  have hsolid : Solid (c :: cs) := by
    simp only [Solid, Bool.or_eq_false_iff, beq_eq_false_iff_ne]
    exact ⟨⟨⟨hne _ rfl (by decide), hne _ rfl (by decide)⟩, hne _ rfl (by decide)⟩,
      hne _ rfl (by decide)⟩
  rw [value, skipBlanks_of_solid hsolid]
  split <;> rename_i heq
  case h_7 => exact h
  all_goals exact absurd (List.cons.inj heq).1 (hne _ rfl (by decide))

theorem value_of_readsAs {text : String} {v : Json} (h : ReadsAs text.toList v) (fuel : Nat)
    {rest : List Char} (hrest : Stops rest) :
    value (fuel + 1) (text.toList ++ rest) = some (numeral text, rest) := by
  rw [numeral_of_readsAs h]
  exact value_of_number (h rest hrest) fuel

/-- The text of an atom is read as what comes back. -/
theorem value_atomText {v : Json} (harr : ∀ vs, v ≠ .arr vs) (hobj : ∀ fs, v ≠ .obj fs) (fuel : Nat)
    {rest : List Char} (hrest : Stops rest) :
    value (fuel + 1) ((atomText v).toList ++ rest) = some (v.reread, rest) := by
  cases v with
  | null => rfl
  | bool b => cases b <;> rfl
  | int i =>
    obtain ⟨v, -, hread⟩ := exists_readsAs_int i
    exact value_of_readsAs hread fuel hrest
  | float x =>
    have hnull (h : floatText x = "null") :
        value (fuel + 1) ((floatText x).toList ++ rest) = some (numeral (floatText x), rest) := by
      rw [h]
      rfl
    cases hx : Binary.ofFloat x with
    | nan => exact hnull (by rw [floatText, hx])
    | infinite negative => exact hnull (by rw [floatText, hx])
    | finite negative m q =>
      obtain ⟨v, -, hread⟩ := exists_readsAs_float hx
      exact value_of_readsAs hread fuel hrest
  | str s =>
    rw [reread, atomText, toList_quote]
    show orUnreadable .str (string (s.toList.flatMap escapeChar ++ ['"'] ++ rest)) = _
    rw [List.append_assoc, List.singleton_append, string_flatMap_escapeChar]
    rfl
  | arr vs => exact absurd rfl (harr vs)
  | obj fs => exact absurd rfl (hobj fs)
  | unreadable => rfl

/-! ### Arrays and objects -/

/-- The text between two entries at a depth. -/
def separator (depth : Nat) : List Char := ',' :: (lineBreak depth).toList

/-- The texts of the entries of an array, character by character. -/
def entriesText (depth : Nat) (entries : List String) : List Char :=
  (separator depth).intercalate (entries.map String.toList)

theorem entriesText_cons_cons (depth : Nat) (x y : String) (entries : List String) :
    entriesText depth (x :: y :: entries) =
      x.toList ++ (separator depth ++ entriesText depth (y :: entries)) := by
  simp [entriesText, List.intercalate]

theorem entriesText_singleton (depth : Nat) (x : String) :
    entriesText depth [x] = x.toList := by
  simp [entriesText, List.intercalate]

/-- The text of entries between brackets. -/
theorem toList_bracketed (opening closing : String) (depth : Nat) {entries : List String}
    (h : entries ≠ []) : (bracketed opening closing depth entries).toList =
      opening.toList ++ ((lineBreak (depth + 1)).toList ++ (entriesText (depth + 1) entries ++
        ((lineBreak depth).toList ++ closing.toList))) := by
  have hempty : entries.isEmpty = false := by
    cases entries with
    | nil => exact absurd rfl h
    | cons x entries => rfl
  simp [bracketed, hempty, String.toList_intercalate, entriesText, separator]

theorem stops_lineBreak (depth : Nat) (rest : List Char) :
    Stops ((lineBreak depth).toList ++ rest) := by
  rw [toList_lineBreak]
  exact ⟨rfl, by decide, by decide, by decide⟩

theorem stops_separator (depth : Nat) (rest : List Char) : Stops (separator depth ++ rest) :=
  ⟨rfl, by decide, by decide, by decide⟩

theorem prettyAll_eq_map (depth : Nat) (vs : List Json) :
    prettyAll depth vs = vs.map (prettyAt depth) := by
  induction vs with
  | nil => rfl
  | cons v vs ih => rw [prettyAll, ih, List.map_cons]

theorem prettyFields_eq_map (depth : Nat) (fs : List (String × Json)) :
    prettyFields depth fs = fs.map fun f => quote f.1 ++ ": " ++ prettyAt depth f.2 := by
  induction fs with
  | nil => rfl
  | cons f fs ih => rw [prettyFields, ih, List.map_cons]

/-- Whether the text of a value at a depth is read as what comes back. -/
def ComesBack (depth : Nat) (v : Json) : Prop :=
  ∀ fuel, (prettyAt depth v).toList.length < fuel → ∀ rest, Stops rest →
    value fuel ((prettyAt depth v).toList ++ rest) = some (v.reread, rest)

theorem length_separator (depth : Nat) : 2 ≤ (separator depth).length := by
  rw [separator, toList_lineBreak]
  simp

/-- The entries of an array are read as what comes back. -/
theorem items_entriesText {depth : Nat} (depth' : Nat) {v : Json} {vs : List Json}
    (h : ∀ w ∈ v :: vs, ComesBack depth w) (fuel : Nat)
    (hfuel : (entriesText depth ((v :: vs).map (prettyAt depth))).length + 1 < fuel)
    (rest : List Char) :
    items fuel (entriesText depth ((v :: vs).map (prettyAt depth)) ++
      ((lineBreak depth').toList ++ ']' :: rest)) = some ((v :: vs).map reread, rest) := by
  induction vs generalizing v fuel with
  | nil =>
    obtain ⟨fuel, rfl⟩ := Nat.exists_eq_succ_of_ne_zero (Nat.ne_zero_of_lt hfuel)
    simp only [List.map_cons, List.map_nil, entriesText_singleton] at hfuel ⊢
    rw [items, h v List.mem_cons_self fuel (by omega) _ (stops_lineBreak depth' _)]
    dsimp only
    rw [skipBlanks_lineBreak]
    rfl
  | cons w vs ih =>
    obtain ⟨fuel, rfl⟩ := Nat.exists_eq_succ_of_ne_zero (Nat.ne_zero_of_lt hfuel)
    have hsep := length_separator depth
    simp only [List.map_cons, entriesText_cons_cons, List.length_append] at hfuel ⊢
    have hrest := ih (fun x hx => h x (List.mem_cons_of_mem _ hx)) fuel
      (by simp only [List.map_cons]; omega)
    simp only [List.map_cons] at hrest
    rw [items, List.append_assoc, List.append_assoc,
      h v List.mem_cons_self fuel (by omega) _ (stops_separator depth _)]
    show (items fuel ((lineBreak depth).toList ++ _)).map _ = _
    rw [items_congr fuel (skipBlanks_lineBreak depth _), hrest]
    rfl

section Fields

variable {depth : Nat} {f : String × Json} (hf : ComesBack depth f.2) {fuel : Nat}
  (hfuel : (prettyAt depth f.2).toList.length < fuel)

/-- The text of a field with more text behind it. -/
theorem toList_field_append (depth : Nat) (f : String × Json) (behind : List Char) :
    (quote f.1 ++ ": " ++ prettyAt depth f.2).toList ++ behind =
      '"' :: (f.1.toList.flatMap escapeChar ++ '"' :: ':' :: ' ' ::
        ((prettyAt depth f.2).toList ++ behind)) := by
  simp [String.toList_append, toList_quote]

include hf hfuel

theorem value_behind_blank {behind : List Char} (hbehind : Stops behind) :
    value fuel (' ' :: ((prettyAt depth f.2).toList ++ behind)) = some (f.2.reread, behind) := by
  rw [← hf fuel hfuel behind hbehind]
  exact value_congr fuel rfl

/-- The last field of an object is read as what comes back. -/
theorem fields_last (depth' : Nat) (rest : List Char) :
    fields (fuel + 1) ((quote f.1 ++ ": " ++ prettyAt depth f.2).toList ++
      ((lineBreak depth').toList ++ '\x7d' :: rest)) = some (some [(f.1, f.2.reread)], rest) := by
  rw [toList_field_append, fields, skipBlanks_of_solid (by rfl)]
  simp only [string_flatMap_escapeChar]
  rw [skipBlanks_of_solid (by rfl)]
  simp only
  rw [value_behind_blank hf hfuel (stops_lineBreak depth' _)]
  dsimp only
  rw [skipBlanks_lineBreak]
  rfl

/-- A field of an object is read as what comes back, and then the next ones. -/
theorem fields_separator (depth' : Nat) (behind : List Char) :
    fields (fuel + 1) ((quote f.1 ++ ": " ++ prettyAt depth f.2).toList ++
      (separator depth' ++ behind)) =
        withField (some f.1) f.2.reread (fields fuel behind) := by
  rw [toList_field_append, fields, skipBlanks_of_solid (by rfl)]
  simp only [string_flatMap_escapeChar]
  rw [skipBlanks_of_solid (by rfl)]
  simp only
  rw [value_behind_blank hf hfuel (stops_separator depth' _)]
  show withField _ _ (fields fuel ((lineBreak depth').toList ++ behind)) = _
  rw [fields_congr fuel (skipBlanks_lineBreak depth' behind)]

end Fields

theorem length_field (depth : Nat) (f : String × Json) :
    (prettyAt depth f.2).toList.length < (quote f.1 ++ ": " ++ prettyAt depth f.2).toList.length := by
  have := congrArg List.length (toList_field_append depth f [])
  simp only [List.append_nil, List.length_cons, List.length_append] at this
  omega

/-- The fields of an object are read as what comes back. -/
theorem fields_entriesText {depth : Nat} (depth' : Nat) {f : String × Json} {fs : List (String × Json)}
    (h : ∀ g ∈ f :: fs, ComesBack depth g.2) (fuel : Nat)
    (hfuel : (entriesText depth (prettyFields depth (f :: fs))).length + 1 < fuel)
    (rest : List Char) :
    fields fuel (entriesText depth (prettyFields depth (f :: fs)) ++
      ((lineBreak depth').toList ++ '\x7d' :: rest)) =
        some (some (rereadFields (f :: fs)), rest) := by
  induction fs generalizing f fuel with
  | nil =>
    obtain ⟨fuel, rfl⟩ := Nat.exists_eq_succ_of_ne_zero (Nat.ne_zero_of_lt hfuel)
    have hlength := length_field depth f
    simp only [prettyFields, entriesText_singleton] at hfuel ⊢
    exact fields_last (h f List.mem_cons_self) (by omega) depth' rest
  | cons g fs ih =>
    obtain ⟨fuel, rfl⟩ := Nat.exists_eq_succ_of_ne_zero (Nat.ne_zero_of_lt hfuel)
    have hlength := length_field depth f
    have hsep := length_separator depth
    have hrest := ih (fun x hx => h x (List.mem_cons_of_mem _ hx)) fuel
    simp only [prettyFields, entriesText_cons_cons, List.length_append] at hfuel hrest ⊢
    rw [List.append_assoc, List.append_assoc,
      fields_separator (h f List.mem_cons_self) (by omega), hrest (by omega)]
    rfl

/-- Behind a bracket there are entries, unless the array ends. -/
theorem value_bracket (fuel : Nat) {cs : List Char} {p : List Json × List Char}
    (h : items fuel cs = some p) : value (fuel + 1) ('[' :: cs) = some (.arr p.1, p.2) := by
  rw [value, skipBlanks_of_solid (by rfl)]
  simp only
  split
  · rename_i hclose
    -- no value begins with the end of an array
    rw [items_congr fuel (skipBlanks_skipBlanks cs).symm, hclose] at h
    cases fuel with
    | zero => cases h
    | succ fuel => cases fuel <;> cases h
  · rw [items_congr fuel (skipBlanks_skipBlanks cs), h]
    rfl

/-- Behind a brace there are fields, unless the object ends. -/
theorem value_brace (fuel : Nat) {cs : List Char} {fs : List (String × Json)} {rest : List Char}
    (h : fields fuel cs = some (some fs, rest)) :
    value (fuel + 1) ('\x7b' :: cs) = some (.obj fs, rest) := by
  rw [value, skipBlanks_of_solid (by rfl)]
  simp only
  split
  · rename_i hclose
    rw [fields_congr fuel (skipBlanks_skipBlanks cs).symm, hclose] at h
    cases fuel <;> cases h
  · rw [fields_congr fuel (skipBlanks_skipBlanks cs), h]
    rfl

/-- The text of a value is read as what comes back. -/
theorem comesBack (depth : Nat) (v : Json) : ComesBack depth v := by
  induction hn : sizeOf v using Nat.strongRecOn generalizing depth v with
  | ind n ih =>
    subst hn
    intro fuel hfuel rest hrest
    obtain ⟨fuel, rfl⟩ := Nat.exists_eq_succ_of_ne_zero (Nat.ne_zero_of_lt hfuel)
    cases v with
    | arr vs =>
      cases vs with
      | nil =>
        rw [show (prettyAt depth (.arr [])).toList = ['[', ']'] by simp [prettyAt, prettyAll, bracketed]]
        rfl
      | cons v vs =>
        have hvs (w) (hw : w ∈ v :: vs) : ComesBack (depth + 1) w := by
          refine ih (sizeOf w) ?_ (depth + 1) w rfl
          have := List.sizeOf_lt_of_mem hw
          simp only [Json.arr.sizeOf_spec]
          omega
        rw [prettyAt, prettyAll_eq_map, toList_bracketed _ _ _ (by simp)] at hfuel ⊢
        simp only [List.length_append] at hfuel
        have hbrackets : "[".toList.length = 1 ∧ "]".toList.length = 1 := ⟨rfl, rfl⟩
        have hitems := items_entriesText depth hvs fuel (by omega) rest
        rw [← items_congr fuel (skipBlanks_lineBreak (depth + 1) _)] at hitems
        simp only [List.append_assoc]
        rw [reread, rereadAll_eq_map]
        exact value_bracket fuel hitems
    | obj fs =>
      cases fs with
      | nil =>
        rw [show (prettyAt depth (.obj [])).toList = ['\x7b', '\x7d'] by
          simp [prettyAt, prettyFields, bracketed]]
        rfl
      | cons f fs =>
        have hfs (g) (hg : g ∈ f :: fs) : ComesBack (depth + 1) g.2 := by
          refine ih (sizeOf g.2) ?_ (depth + 1) g.2 rfl
          have := List.sizeOf_lt_of_mem hg
          obtain ⟨k, v⟩ := g
          simp only [Json.obj.sizeOf_spec, Prod.mk.sizeOf_spec] at this ⊢
          omega
        rw [prettyAt, toList_bracketed _ _ _ (by rw [prettyFields_eq_map]; simp)] at hfuel ⊢
        simp only [List.length_append] at hfuel
        have hbraces : "\x7b".toList.length = 1 ∧ "\x7d".toList.length = 1 := ⟨rfl, rfl⟩
        have hfields := fields_entriesText depth hfs fuel (by omega) rest
        rw [← fields_congr fuel (skipBlanks_lineBreak (depth + 1) _)] at hfields
        simp only [List.append_assoc]
        rw [reread]
        exact value_brace fuel hfields
    | _ => exact value_atomText (by simp) (by simp) fuel hrest

/-- The text of a value is read as what comes back. -/
theorem parse_pretty (v : Json) : parse v.pretty = some v.reread := by
  have hread := comesBack 0 v (v.pretty.toList.length + 1) (Nat.lt_succ_self _) [] trivial
  rw [List.append_nil] at hread
  unfold parse
  dsimp only
  rw [show v.pretty.toList = (prettyAt 0 v).toList from rfl] at hread ⊢
  rw [hread]
  rfl

end Json

end Quasiquote
