import Quasiquote.Json.Reader
import Quasiquote.Proofs.Decimal.Shortest

namespace Quasiquote

/-!
# Numbers read back

A number that was written is read up to its last digit, whatever stands behind it, as long as
that cannot go on with a number.  Integers of sixty-four bits come back as they were; what
comes back for a float may be a neighbour of it.

* `Json.ReadsAs` — what a text is read as, whatever follows;
* `Json.readsAs_int`, `Json.exists_readsAs_int` — integers come back, as themselves if they fit;
* `Json.exists_readsAs_float` — every finite float is a number again.
-/

namespace Json

open Digits

/-- Whether a number cannot go on with a text. -/
def Stops : List Char → Prop
  | [] => True
  | c :: _ => c.isDigit = false ∧ c ≠ '.' ∧ c ≠ 'e' ∧ c ≠ 'E'

theorem Stops.digitNext {rest : List Char} (h : Stops rest) : digitNext rest = false := by
  cases rest with
  | nil => rfl
  | cons c cs => exact h.1

/-- Whether a text is read as a number, whatever follows it. -/
def ReadsAs (text : List Char) (v : Json) : Prop :=
  ∀ rest, Stops rest → number (text ++ rest) = some (v, rest)

/-- Whether a value is what numbers are read as. -/
def isNumber : Json → Bool
  | .int _ | .float _ | .unreadable => true
  | _ => false

theorem isNumber_floatOf (negative : Bool) (n : Nat) (e : Int) :
    (floatOf negative n e).isNumber = true := by
  unfold floatOf
  split <;> rfl

/-! ### Runs of digits -/

/-- A single zero consists of digits. -/
theorem isDigit_zero : ∀ c ∈ ['0'], c.isDigit = true := by
  intro c hc
  rw [List.mem_singleton.1 hc]
  rfl

theorem digitNext_append {ds rest : List Char} (hne : ds ≠ []) (hds : ∀ c ∈ ds, c.isDigit = true) :
    digitNext (ds ++ rest) = true := by
  cases ds with
  | nil => exact absurd rfl hne
  | cons c cs => exact hds c List.mem_cons_self

theorem takeWhile_isDigit_append {ds rest : List Char} (hds : ∀ c ∈ ds, c.isDigit = true)
    (hrest : digitNext rest = false) : (ds ++ rest).takeWhile Char.isDigit = ds := by
  rw [List.takeWhile_append_of_pos hds]
  cases rest with
  | nil => simp
  | cons c cs => rw [List.takeWhile_cons_of_neg (by simpa [digitNext] using hrest), List.append_nil]

theorem dropWhile_isDigit_append {ds rest : List Char} (hds : ∀ c ∈ ds, c.isDigit = true)
    (hrest : digitNext rest = false) : (ds ++ rest).dropWhile Char.isDigit = rest := by
  rw [List.dropWhile_append_of_pos hds]
  cases rest with
  | nil => rfl
  | cons c cs => rw [List.dropWhile_cons_of_neg (by simpa [digitNext] using hrest)]

theorem addDigits_of_stop (n count : Nat) {rest : List Char} (hrest : digitNext rest = false) :
    addDigits n count rest = (n, count, rest) := by
  cases rest with
  | nil => rfl
  | cons c cs =>
    have hc : c.isDigit = false := hrest
    simp [addDigits, hc]

theorem addDigits_cons {n : Nat} {c : Char} (count : Nat) (cs : List Char) (hc : c.isDigit = true)
    (hfits : n * 10 + (c.toNat - '0'.toNat) < Word.count) :
    addDigits n count (c :: cs) = addDigits (n * 10 + (c.toNat - '0'.toNat)) (count + 1) cs := by
  rw [addDigits, if_pos]
  simp only [hc, Bool.true_and, decide_eq_true_eq]
  exact hfits

/-- Digits are added as long as they fit, and the others are left. -/
theorem exists_addDigits (n count : Nat) {ds : List Char} (hds : ∀ c ∈ ds, c.isDigit = true) :
    ∃ n' count' left, (∀ c ∈ left, c.isDigit = true) ∧ ∀ rest, digitNext rest = false →
      addDigits n count (ds ++ rest) = (n', count', left ++ rest) := by
  induction ds generalizing n count with
  | nil => exact ⟨n, count, [], by simp, fun rest hrest => addDigits_of_stop n count hrest⟩
  | cons c cs ih =>
    have hcs : ∀ d ∈ cs, d.isDigit = true := fun d hd => hds d (List.mem_cons_of_mem _ hd)
    by_cases hfits : n * 10 + (c.toNat - '0'.toNat) < Word.count
    · obtain ⟨n', count', left, hleft, hrun⟩ := ih (n * 10 + (c.toNat - '0'.toNat)) (count + 1) hcs
      refine ⟨n', count', left, hleft, fun rest hrest => ?_⟩
      rw [← hrun rest hrest]
      exact addDigits_cons count _ (hds c List.mem_cons_self) hfits
    · refine ⟨n, count, c :: cs, hds, fun rest hrest => ?_⟩
      rw [List.cons_append, addDigits, if_neg]
      simp only [Bool.and_eq_true, decide_eq_true_eq, not_and]
      exact fun _ => hfits

/-- All digits are added if the number fits. -/
theorem addDigits_of_fits (n count : Nat) {ds rest : List Char} (hds : ∀ c ∈ ds, c.isDigit = true)
    (hrest : digitNext rest = false)
    (hfits : ds.foldl (fun n d => 10 * n + (d.toNat - '0'.toNat)) n < Word.count) :
    addDigits n count (ds ++ rest) =
      (ds.foldl (fun n d => 10 * n + (d.toNat - '0'.toNat)) n, count + ds.length, rest) := by
  have hgrows (n : Nat) (ds : List Char) :
      n ≤ ds.foldl (fun n d => 10 * n + (d.toNat - '0'.toNat)) n := by
    induction ds generalizing n with
    | nil => exact Nat.le_refl n
    | cons d ds ih => exact (by omega : n ≤ 10 * n + (d.toNat - '0'.toNat)).trans (ih _)
  induction ds generalizing n count with
  | nil => exact addDigits_of_stop n count hrest
  | cons c cs ih =>
    have hcs : ∀ d ∈ cs, d.isDigit = true := fun d hd => hds d (List.mem_cons_of_mem _ hd)
    have hnext : n * 10 + (c.toNat - '0'.toNat) < Word.count := by
      rw [Nat.mul_comm]
      exact (hgrows _ cs).trans_lt hfits
    have hstep : addDigits n count (c :: cs ++ rest) =
        addDigits (10 * n + (c.toNat - '0'.toNat)) (count + 1) (cs ++ rest) := by
      rw [Nat.mul_comm 10 n]
      exact addDigits_cons count _ (hds c List.mem_cons_self) hnext
    rw [hstep, ih _ _ hcs hfits]
    simp only [List.foldl_cons, List.length_cons, Nat.add_assoc, Nat.add_comm 1]

/-! ### The parts of a number -/

/-- Whether a text is the integer part of a number. -/
def Whole (ds : List Char) : Prop := ds = ['0'] ∨ Leads ds

/-- An integer part is read as such. -/
theorem exists_unsigned {ds : List Char} (hds : Whole ds) :
    ∃ n dropped, ∀ negative rest, digitNext rest = false →
      unsigned negative (ds ++ rest) = afterInteger negative n dropped rest := by
  rcases hds with rfl | hds
  · exact ⟨0, 0, fun negative rest hrest => by simp [unsigned, hrest]⟩
  · obtain ⟨n, count, left, hleft, hrun⟩ := exists_addDigits 0 0 hds.isDigit
    refine ⟨n, left.length, fun negative rest hrest => ?_⟩
    have hnext : digitNext (ds ++ rest) = true := digitNext_append hds.ne_nil hds.isDigit
    unfold unsigned
    split
    · rename_i cs heq
      cases ds with
      | nil => exact hds.elim
      | cons c ds => exact absurd (List.cons.inj heq).1 hds.2.1
    · rw [hnext, hrun rest hrest]
      simp [skipDigits, takeWhile_isDigit_append hleft hrest, dropWhile_isDigit_append hleft hrest]

/-- Digits behind a point are read as a fraction. -/
theorem exists_fractionPart (negative : Bool) (n : Nat) (e : Int) {ds : List Char} (hne : ds ≠ [])
    (hds : ∀ c ∈ ds, c.isDigit = true) :
    ∃ n' e', ∀ rest, digitNext rest = false →
      fractionPart negative n e (ds ++ rest) = afterFraction negative n' e' rest := by
  obtain ⟨n', count, left, hleft, hrun⟩ := exists_addDigits n 0 hds
  refine ⟨n', e - count, fun rest hrest => ?_⟩
  rw [fractionPart, digitNext_append hne hds, hrun rest hrest]
  simp [skipDigits, dropWhile_isDigit_append hleft hrest]

/-- What a significand with an exponent of some size is read as. -/
def scaled (negative : Bool) (n : Nat) (e : Int) (minus : Bool) (size : Nat) : Json :=
  if exponentBound ≤ size then
    if n ≠ 0 && !minus then .unreadable else .float (if negative then -0.0 else 0.0)
  else floatOf negative n (if minus then e - size else e + size)

theorem isNumber_scaled (negative : Bool) (n : Nat) (e : Int) (minus : Bool) (size : Nat) :
    (scaled negative n e minus size).isNumber = true := by
  unfold scaled
  split
  · split <;> rfl
  · exact isNumber_floatOf _ _ _

/-- Digits behind the letter and a sign are read as an exponent. -/
theorem exists_exponentPart (negative : Bool) (n : Nat) (e : Int) {sign ds : List Char}
    (hsign : sign = [] ∨ sign = ['+'] ∨ sign = ['-']) (hne : ds ≠ [])
    (hds : ∀ c ∈ ds, c.isDigit = true) :
    ∃ v : Json, v.isNumber = true ∧ ∀ rest, digitNext rest = false →
      exponentPart negative n e (sign ++ ds ++ rest) = some (v, rest) := by
  refine ⟨scaled negative n e (sign == ['-']) (Decimal.natOfDigits ds), isNumber_scaled _ _ _ _ _,
    fun rest hrest => ?_⟩
  -- what is read behind the sign
  have hbehind (minus : Bool) : (if !digitNext (ds ++ rest) then none
      else if exponentBound ≤ Decimal.natOfDigits ((ds ++ rest).takeWhile Char.isDigit) then
        if n ≠ 0 && !minus then some (unreadable, (ds ++ rest).dropWhile Char.isDigit)
        else some (float (if negative then -0.0 else 0.0), (ds ++ rest).dropWhile Char.isDigit)
      else some (floatOf negative n
        (if minus then e - Decimal.natOfDigits ((ds ++ rest).takeWhile Char.isDigit)
          else e + Decimal.natOfDigits ((ds ++ rest).takeWhile Char.isDigit)),
        (ds ++ rest).dropWhile Char.isDigit)) =
      some (scaled negative n e minus (Decimal.natOfDigits ds), rest) := by
    rw [digitNext_append hne hds, takeWhile_isDigit_append hds hrest,
      dropWhile_isDigit_append hds hrest, scaled]
    simp only [Bool.not_true, Bool.false_eq_true, if_false]
    split
    · split <;> rfl
    · rfl
  rcases hsign with rfl | rfl | rfl
  · unfold exponentPart
    dsimp only
    split
    · rename_i heq
      cases ds with
      | nil => exact absurd rfl hne
      | cons c cs =>
        cases (List.cons.inj heq).1
        cases hds '+' List.mem_cons_self
    · rename_i heq
      cases ds with
      | nil => exact absurd rfl hne
      | cons c cs =>
        cases (List.cons.inj heq).1
        cases hds '-' List.mem_cons_self
    · exact hbehind false
  · exact hbehind false
  · exact hbehind true

/-! ### Whole numbers -/

/-- Nothing goes on behind an integer. -/
theorem afterInteger_of_stops (negative : Bool) (n dropped : Nat) {rest : List Char}
    (hrest : Stops rest) : afterInteger negative n dropped rest =
      if dropped = 0 && !negative then some (.int n, rest)
      else if dropped = 0 && n ≠ 0 && Word.fits (-(n : Int)) then some (.int (-(n : Int)), rest)
      else some (floatOf negative n dropped, rest) := by
  cases rest with
  | nil => rfl
  | cons c cs =>
    obtain ⟨-, hpoint, he, hE⟩ := hrest
    unfold afterInteger
    split
    · rename_i h
      exact absurd (List.cons.inj h).1 hpoint
    · rename_i h
      exact absurd (List.cons.inj h).1 he
    · rename_i h
      exact absurd (List.cons.inj h).1 hE
    · rfl

/-- What begins with a digit has no sign. -/
theorem number_of_isDigit {cs : List Char} (h : digitNext cs = true) :
    number cs = unsigned false cs := by
  unfold number
  split
  · cases h
  · rfl

/-- A natural number that fits is read as it is. -/
theorem unsigned_ofNat (negative : Bool) {n : Nat} (hn : n < Word.count) {rest : List Char}
    (hrest : digitNext rest = false) :
    unsigned negative (ofNat n ++ rest) = afterInteger negative n 0 rest := by
  rcases Nat.eq_zero_or_pos n with rfl | hpos
  · simp [ofNat, unsigned, hrest]
  · have hleads := leads_ofNat hpos
    have hvalue := natOfDigits_ofNat n
    unfold Decimal.natOfDigits at hvalue
    have hrun := addDigits_of_fits 0 0 hleads.isDigit hrest (hvalue.trans_lt hn)
    rw [hvalue] at hrun
    have hnext : digitNext (ofNat n ++ rest) = true := digitNext_append hleads.ne_nil hleads.isDigit
    unfold unsigned
    split
    · rename_i cs heq
      revert hleads heq
      cases ofNat n with
      | nil => exact fun h => h.elim
      | cons c ds => exact fun h heq => absurd (List.cons.inj heq).1 h.2.1
    · rw [hnext, hrun]
      have hskip : ([] ++ rest).takeWhile Char.isDigit = [] := takeWhile_isDigit_append (by simp) hrest
      have hskip' : ([] ++ rest).dropWhile Char.isDigit = rest := dropWhile_isDigit_append (by simp) hrest
      simp only [List.nil_append] at hskip hskip'
      simp [skipDigits, hskip, hskip']

theorem toList_toString_negSucc (n : Nat) : (toString (Int.negSucc n)).toList = '-' :: ofNat (n + 1) := by
  show ("-" ++ toString (n + 1)).toList = _
  rw [String.toList_append, toList_toString]
  rfl

/-- Integers of sixty-four bits, with a sign or without, come back. -/
theorem readsAs_int {i : Int} (hlow : -Word.bound ≤ i) (hhigh : i < Word.count) :
    ReadsAs (toString i).toList (.int i) := by
  intro rest hrest
  cases i with
  | ofNat n =>
    have hn : n < Word.count := Int.ofNat_lt.1 hhigh
    show number ((toString n).toList ++ rest) = _
    rw [toList_toString,
      number_of_isDigit (digitNext_append (ofNat_ne_nil n) fun c hc => isDigit_of_mem hc),
      unsigned_ofNat false hn hrest.digitNext, afterInteger_of_stops _ _ _ hrest]
    simp
  | negSucc n =>
    have hfits : Word.fits (-((n + 1 : Nat) : Int)) = true := Word.fits_iff.2 ⟨hlow, by
      unfold Word.bound
      omega⟩
    have hn : n + 1 < Word.count := by
      unfold Word.bound at hlow
      unfold Word.count
      omega
    rw [toList_toString_negSucc]
    show unsigned true (ofNat (n + 1) ++ rest) = _
    rw [unsigned_ofNat true hn hrest.digitNext, afterInteger_of_stops _ _ _ hrest, hfits]
    simp [Int.negSucc_eq]

/-! ### Floats -/

/-- A number with its sign. -/
def signed (negative : Bool) (text : List Char) : List Char :=
  if negative then '-' :: text else text

/-- A text that begins with an integer part is read as a number if what is behind it is. -/
theorem exists_readsAs {ds tail : List Char} (hds : Whole ds)
    (htail : ∀ rest, Stops rest → digitNext (tail ++ rest) = false)
    (h : ∀ negative n dropped, ∃ v : Json, v.isNumber = true ∧ ∀ rest, Stops rest →
      afterInteger negative n dropped (tail ++ rest) = some (v, rest)) (negative : Bool) :
    ∃ v : Json, v.isNumber = true ∧ ReadsAs (signed negative (ds ++ tail)) v := by
  obtain ⟨n, dropped, hwhole⟩ := exists_unsigned hds
  obtain ⟨v, hv, hread⟩ := h negative n dropped
  refine ⟨v, hv, fun rest hrest => ?_⟩
  have hstop := htail rest hrest
  have hfirst : ds ≠ [] ∧ ∀ c ∈ ds, c.isDigit = true := by
    rcases hds with rfl | hds
    · exact ⟨List.cons_ne_nil _ _, isDigit_zero⟩
    · exact ⟨hds.ne_nil, hds.isDigit⟩
  cases negative with
  | false =>
    have hnext : digitNext (ds ++ (tail ++ rest)) = true := digitNext_append hfirst.1 hfirst.2
    simp only [signed, Bool.false_eq_true, if_false, List.append_assoc]
    rw [number_of_isDigit hnext, hwhole _ _ hstop, hread rest hrest]
  | true =>
    simp only [signed, if_true, List.cons_append, List.append_assoc]
    show unsigned true (ds ++ (tail ++ rest)) = _
    rw [hwhole _ _ hstop, hread rest hrest]

/-- Every integer is read as a number. -/
theorem exists_readsAs_int (i : Int) :
    ∃ v : Json, v.isNumber = true ∧ ReadsAs (toString i).toList v := by
  have hwhole (n : Nat) : Whole (ofNat n) := by
    rcases Nat.eq_zero_or_pos n with rfl | hn
    · exact .inl rfl
    · exact .inr (leads_ofNat hn)
  have hdigits (negative : Bool) (n : Nat) :
      ∃ v : Json, v.isNumber = true ∧ ReadsAs (signed negative (ofNat n ++ [])) v := by
    refine exists_readsAs (hwhole n) (fun rest hrest => ?_) (fun negative n dropped => ?_) negative
    · exact hrest.digitNext
    by_cases hplain : (dropped = 0 && !negative) = true
    · exact ⟨.int n, rfl, fun rest hrest =>
        (afterInteger_of_stops _ _ _ hrest).trans (if_pos hplain)⟩
    · by_cases hfits : (dropped = 0 && n ≠ 0 && Word.fits (-(n : Int))) = true
      · exact ⟨.int (-(n : Int)), rfl, fun rest hrest =>
          (afterInteger_of_stops _ _ _ hrest).trans ((if_neg hplain).trans (if_pos hfits))⟩
      · exact ⟨floatOf negative n dropped, isNumber_floatOf _ _ _, fun rest hrest =>
          (afterInteger_of_stops _ _ _ hrest).trans ((if_neg hplain).trans (if_neg hfits))⟩
  simp only [List.append_nil] at hdigits
  cases i with
  | ofNat n =>
    show ∃ v : Json, v.isNumber = true ∧ ReadsAs (toString n).toList v
    rw [toList_toString]
    exact hdigits false n
  | negSucc n =>
    rw [toList_toString_negSucc]
    exact hdigits true (n + 1)

/-- A fraction is read as a number. -/
theorem exists_readsAs_fraction {ds fs : List Char} (hds : Whole ds) (hne : fs ≠ [])
    (hfs : ∀ c ∈ fs, c.isDigit = true) (negative : Bool) :
    ∃ v : Json, v.isNumber = true ∧ ReadsAs (signed negative (ds ++ '.' :: fs)) v := by
  refine exists_readsAs hds (fun _ _ => rfl) (fun negative n dropped => ?_) negative
  obtain ⟨n', e', hread⟩ := exists_fractionPart negative n dropped hne hfs
  refine ⟨floatOf negative n' e', isNumber_floatOf _ _ _, fun rest hrest => ?_⟩
  show fractionPart negative n dropped (fs ++ rest) = _
  rw [hread rest hrest.digitNext]
  cases rest with
  | nil => rfl
  | cons c cs =>
    obtain ⟨-, -, he, hE⟩ := hrest
    unfold afterFraction
    split
    · rename_i h
      exact absurd (List.cons.inj h).1 he
    · rename_i h
      exact absurd (List.cons.inj h).1 hE
    · rfl

/-- A number with an exponent is read as a number. -/
theorem exists_readsAs_scientific {ds fs sign es : List Char} (hds : Whole ds)
    (hfs : ∀ c ∈ fs, c.isDigit = true) (hsign : sign = [] ∨ sign = ['+'] ∨ sign = ['-'])
    (hne : es ≠ []) (hes : ∀ c ∈ es, c.isDigit = true) (negative : Bool) :
    ∃ v : Json, v.isNumber = true ∧ ReadsAs (signed negative
      (ds ++ ((if fs.isEmpty then [] else '.' :: fs) ++ 'e' :: (sign ++ es)))) v := by
  refine exists_readsAs hds (fun rest _ => ?_) (fun negative n dropped => ?_) negative
  · cases fs <;> rfl
  · cases fs with
    | nil =>
      obtain ⟨v, hv, hread⟩ := exists_exponentPart negative n dropped hsign hne hes
      exact ⟨v, hv, fun rest hrest => hread rest hrest.digitNext⟩
    | cons f fs =>
      obtain ⟨n', e', hfraction⟩ := exists_fractionPart negative n dropped (List.cons_ne_nil f fs) hfs
      obtain ⟨v, hv, hread⟩ := exists_exponentPart negative n' e' hsign hne hes
      refine ⟨v, hv, fun rest hrest => ?_⟩
      have hpart := hfraction ('e' :: (sign ++ es ++ rest)) rfl
      simp only [List.cons_append, List.append_assoc] at hpart hread
      simp only [List.isEmpty_cons, Bool.false_eq_true, if_false, List.cons_append,
        List.append_assoc, afterInteger, hpart, afterFraction, hread rest hrest.digitNext]

/-- A positive decimal is read as a number. -/
theorem exists_readsAs_decimal {d : Decimal} (hd : Leads d.digits) (negative : Bool) :
    ∃ v : Json, v.isNumber = true ∧ ReadsAs (signed negative (Layout.json.decimalText d)) v := by
  have htext : Layout.json.decimalText d = Layout.json.positionalText d ∨
      Layout.json.decimalText d = Layout.json.scientificText d := by
    unfold Layout.decimalText
    split
    · exact .inl rfl
    · split
      · exact .inl rfl
      · exact .inr rfl
  have hzeros (n : Nat) : ∀ c ∈ List.replicate n '0', c.isDigit = true := fun c hc => by
    rw [List.eq_of_mem_replicate hc]
    rfl
  rcases htext with htext | htext <;> rw [htext]
  · unfold Layout.positionalText
    split
    · refine @exists_readsAs_fraction ['0'] _ (.inl rfl) ?_ ?_ negative
      · exact List.append_ne_nil_of_right_ne_nil _ hd.ne_nil
      · intro c hc
        exact (List.mem_append.1 hc).elim (hzeros _ c) (hd.isDigit c)
    · rename_i hpoint
      dsimp only
      split
      · have := exists_readsAs_fraction (.inr (hd.append (hzeros (d.point.toNat - d.digits.length))))
          (List.cons_ne_nil '0' []) isDigit_zero negative
        simpa [Layout.json] using this
      · rename_i hlong
        refine exists_readsAs_fraction (.inr (hd.take (by omega))) ?_ ?_ negative
        · intro hnil
          exact hlong (List.drop_eq_nil_iff.1 hnil)
        · exact fun c hc => hd.isDigit c (List.mem_of_mem_drop hc)
  · unfold Layout.scientificText
    dsimp only
    have hes : ∀ c ∈ (toString (d.point - 1).natAbs).toList, c.isDigit = true := by
      rw [toList_toString]
      exact fun c hc => isDigit_of_mem hc
    have hne : (toString (d.point - 1).natAbs).toList ≠ [] := by
      rw [toList_toString]
      exact ofNat_ne_nil _
    have hsign : (if d.point - 1 < 0 then ['-'] else if Layout.json.plus then ['+'] else []) = [] ∨
        (if d.point - 1 < 0 then ['-'] else if Layout.json.plus then ['+'] else []) = ['+'] ∨
        (if d.point - 1 < 0 then ['-'] else if Layout.json.plus then ['+'] else []) = ['-'] := by
      split
      · exact .inr (.inr rfl)
      · exact .inr (.inl rfl)
    have hfs : ∀ c ∈ d.digits.drop 1, c.isDigit = true :=
      fun c hc => hd.isDigit c (List.mem_of_mem_drop hc)
    have := exists_readsAs_scientific (.inr (hd.take Nat.zero_lt_one)) hfs hsign hne hes negative
    simpa only [List.append_assoc] using this

/-- A finite float is read as a number. -/
theorem exists_readsAs_float {x : Float} {negative : Bool} {m : Nat} {q : Int}
    (hx : Binary.ofFloat x = .finite negative m q) :
    ∃ v : Json, v.isNumber = true ∧ ReadsAs (floatText x).toList v := by
  unfold floatText Layout.render
  rw [hx]
  dsimp only
  rw [String.toList_ofList]
  by_cases hm : m = 0
  · rw [if_pos hm]
    exact exists_readsAs_fraction (.inl rfl) (List.cons_ne_nil '0' []) isDigit_zero negative
  · rw [if_neg hm]
    exact exists_readsAs_decimal (Decimal.leads_shortest _ (Nat.pos_of_ne_zero hm) q) negative

end Json

end Quasiquote
