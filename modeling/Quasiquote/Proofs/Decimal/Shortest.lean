import Mathlib.Data.List.DropRight
import Quasiquote.Proofs.Text.Digits

namespace Quasiquote

/-!
# The digits of a shortest decimal

The grids on which a shortest decimal is searched begin at its magnitude, and no grid answers
zero.  So what is found begins with a digit other than zero, as a number in a text has to.

* `Digits.Leads` — digits that begin with one other than zero;
* `Decimal.magnitude_le` — no number lies below its magnitude;
* `Decimal.leads_shortest` — the digits of a positive double lead.
-/

namespace Digits

/-- Whether a text consists of digits, the first of which is not zero. -/
def Leads : List Char → Prop
  | [] => False
  | c :: cs => c.isDigit = true ∧ c ≠ '0' ∧ ∀ d ∈ cs, d.isDigit = true

theorem Leads.isDigit {ds : List Char} (h : Leads ds) : ∀ c ∈ ds, c.isDigit = true := by
  cases ds with
  | nil => exact h.elim
  | cons c cs =>
    intro d hd
    rcases List.mem_cons.1 hd with rfl | hd
    · exact h.1
    · exact h.2.2 d hd

/-- Digits that lead are some digits. -/
theorem Leads.ne_nil {ds : List Char} (h : Leads ds) : ds ≠ [] := by
  rintro rfl
  exact h

/-- Digits may follow. -/
theorem Leads.append {ds es : List Char} (h : Leads ds) (hes : ∀ c ∈ es, c.isDigit = true) :
    Leads (ds ++ es) := by
  cases ds with
  | nil => exact h.elim
  | cons c cs =>
    refine ⟨h.1, h.2.1, fun d hd => ?_⟩
    rcases List.mem_append.1 hd with hd | hd
    · exact h.2.2 d hd
    · exact hes d hd

/-- The digits at the front lead as well. -/
theorem Leads.take {ds : List Char} (h : Leads ds) {n : Nat} (hn : 0 < n) : Leads (ds.take n) := by
  cases ds with
  | nil => exact h.elim
  | cons c cs =>
    obtain ⟨n, rfl⟩ := Nat.exists_eq_succ_of_ne_zero hn.ne'
    exact ⟨h.1, h.2.1, fun d hd => h.2.2 d (List.mem_of_mem_take hd)⟩

/-- A positive number does not begin with zero. -/
theorem leads_ofNat {n : Nat} (hn : 0 < n) : Leads (ofNat n) := by
  induction n using Nat.strongRecOn with
  | ind n ih =>
    unfold ofNat
    by_cases hlt : n < 10
    · rw [Nat.toDigits_of_lt_base hlt]
      have hsingle : ∀ n < 10, 0 < n → n.digitChar.isDigit = true ∧ n.digitChar ≠ '0' := by decide
      exact ⟨(hsingle n hlt hn).1, (hsingle n hlt hn).2, by simp⟩
    · rw [Nat.toDigits_of_base_le (by decide) (Nat.le_of_not_lt hlt)]
      refine (ih (n / 10) (by omega) (by omega)).append fun c hc => ?_
      refine isDigit_of_mem (n := n) ?_
      unfold ofNat
      rw [Nat.toDigits_of_base_le (by decide) (Nat.le_of_not_lt hlt)]
      exact List.mem_append_right _ hc

/-- Digits that lead still do without the zeros at their end. -/
theorem Leads.trim {ds : List Char} (h : Leads ds) :
    Leads (ds.reverse.dropWhile (· == '0')).reverse := by
  cases ds with
  | nil => exact h.elim
  | cons c cs =>
    have htrim : ((c :: cs).reverse.dropWhile (· == '0')).reverse =
        c :: (cs.reverse.dropWhile (· == '0')).reverse := by
      rw [List.reverse_cons, List.dropWhile_append]
      split
      · rename_i hnone
        rw [List.isEmpty_iff.1 hnone]
        simp [h.2.1]
      · simp
    rw [htrim]
    refine ⟨h.1, h.2.1, fun d hd => h.2.2 d ?_⟩
    exact List.mem_reverse.1 ((List.dropWhile_sublist _).mem (List.mem_reverse.1 hd))

end Digits

namespace Decimal

open Digits

/-- A number has as many digits as its magnitude says. -/
theorem tenTo_le_of_pos {n : Nat} (hn : 0 < n) : tenTo ((ofNat n).length - 1) ≤ n := by
  by_contra hlt
  by_cases hone : (ofNat n).length = 1
  · rw [hone] at hlt
    exact hlt hn
  · have hpos : 0 < (ofNat n).length := List.length_pos_iff.2 (ofNat_ne_nil n)
    have hshort : (ofNat n).length ≤ (ofNat n).length - 1 :=
      (Nat.length_toDigits_le_iff (by decide) (by omega)).2 (Nat.lt_of_not_le hlt)
    omega

theorem lt_tenTo (n : Nat) : n < tenTo (ofNat n).length :=
  (Nat.length_toDigits_le_iff (by decide) (List.length_pos_iff.2 (ofNat_ne_nil n))).1 (Nat.le_refl _)

theorem tenTo_pos (n : Nat) : 0 < tenTo n := Nat.pow_pos (by decide)

theorem tenTo_mono {m n : Nat} (h : m ≤ n) : tenTo m ≤ tenTo n := Nat.pow_le_pow_right (by decide) h

/-- No number lies below its magnitude. -/
theorem magnitude_le {num den : Nat} (hnum : 0 < num) (hden : 0 < den) :
    den * tenTo (magnitude num den - 1).toNat ≤ num * tenTo (1 - magnitude num den).toNat := by
  have hdigits (n : Nat) : ((toString n).length : Int) = (ofNat n).length := by
    rw [← toList_toString, String.length_toList]
  unfold magnitude
  split
  · rename_i hle
    have hpos : 0 < num / den := Nat.div_pos hle hden
    have hlen : 0 < (ofNat (num / den)).length := List.length_pos_iff.2 (ofNat_ne_nil _)
    rw [hdigits, show (1 - ((ofNat (num / den)).length : Int)).toNat = 0 by omega,
      show (((ofNat (num / den)).length : Int) - 1).toNat = (ofNat (num / den)).length - 1 by omega]
    calc den * tenTo ((ofNat (num / den)).length - 1)
        ≤ den * (num / den) := Nat.mul_le_mul_left _ (tenTo_le_of_pos hpos)
      _ ≤ num := Nat.mul_div_le num den
      _ = num * tenTo 0 := (Nat.mul_one num).symm
  · rename_i hlt
    have hlen : 0 < (ofNat (den / num)).length := List.length_pos_iff.2 (ofNat_ne_nil _)
    have hbound : den ≤ num * tenTo (ofNat (den / num)).length :=
      ((Nat.div_lt_iff_lt_mul hnum).1 (lt_tenTo (den / num))).le.trans_eq (Nat.mul_comm _ _)
    have hlength : (toString (den / num)).length = (ofNat (den / num)).length :=
      Int.ofNat.inj (hdigits _)
    dsimp only
    rw [hlength]
    split
    · rename_i heq
      rw [show (2 - ((ofNat (den / num)).length : Int) - 1).toNat = 0 by omega,
        show (1 - (2 - ((ofNat (den / num)).length : Int))).toNat =
          (ofNat (den / num)).length - 1 by omega, heq]
      exact (Nat.mul_one den).le
    · rw [show (1 - ((ofNat (den / num)).length : Int) - 1).toNat = 0 by omega,
        show (1 - (1 - ((ofNat (den / num)).length : Int))).toNat =
          (ofNat (den / num)).length by omega]
      exact (Nat.mul_one den).le.trans hbound

/-- A grid that is at least as fine as the magnitude has a positive point below the number. -/
theorem grid_pos {num den n : Nat} (hnum : 0 < num) (hden : 0 < den) (hn : 1 ≤ n) :
    0 < num * tenTo ((n : Int) - magnitude num den).toNat /
      (den * tenTo (magnitude num den - n).toNat) := by
  refine Nat.div_pos ?_ (Nat.mul_pos hden (tenTo_pos _))
  calc den * tenTo (magnitude num den - n).toNat
      ≤ den * tenTo (magnitude num den - 1).toNat :=
        Nat.mul_le_mul_left _ (tenTo_mono (by omega))
    _ ≤ num * tenTo (1 - magnitude num den).toNat := magnitude_le hnum hden
    _ ≤ num * tenTo ((n : Int) - magnitude num den).toNat :=
        Nat.mul_le_mul_left _ (tenTo_mono (by omega))

/-- Zero does not round to a positive double. -/
theorem not_holds_zero {m : Nat} (hm : 0 < m) (q e : Int) : (gap m q).holds q 0 e = false := by
  have hlow : 0 < (gap m q).low * twoTo (q - 2).toNat * tenTo (-e).toNat := by
    refine Nat.mul_pos (Nat.mul_pos ?_ (Nat.pow_pos (by decide))) (tenTo_pos _)
    unfold gap
    dsimp only
    split <;> omega
  simp only [Gap.holds, sides, Nat.zero_mul]
  split
  · simp [Nat.not_le.2 hlow]
  · simp

/-- No grid answers zero for a positive double. -/
theorem onGrid_pos {tie : Tie} {m c : Nat} (hm : 0 < m) {q e : Int}
    (h : onGrid tie m q e = some c) : 0 < c := by
  unfold onGrid at h
  dsimp only at h
  generalize (Binary.ratio m q).1 * tenTo (-e).toNat / ((Binary.ratio m q).2 * tenTo e.toNat) = n at h
  have hpos (hn : (gap m q).holds q n e = true) : 0 < n := by
    refine Nat.pos_of_ne_zero fun hzero => ?_
    rw [hzero, not_holds_zero hm] at hn
    cases hn
  split at h
  · rename_i hn _
    have hnearer : nearer tie m q n e = n ∨ nearer tie m q n e = n + 1 := by
      unfold nearer
      dsimp only
      repeat' split
      all_goals simp
    have := hpos hn
    have := Option.some.inj h
    omega
  · rename_i hn _
    exact Option.some.inj h ▸ hpos hn
  · exact Option.some.inj h ▸ Nat.succ_pos n
  · cases h

theorem leads_ofScaled {c : Nat} (hc : 0 < c) (e : Int) : Leads (ofScaled c e).digits := by
  unfold ofScaled
  rw [toList_toString]
  exact (leads_ofNat hc).trim

/-- The digits of a positive double lead. -/
theorem leads_shortest (tie : Tie) {m : Nat} (hm : 0 < m) (q : Int) :
    Leads (shortest tie m q).digits := by
  have hnum : 0 < (Binary.ratio m q).1 := Nat.mul_pos hm (Nat.pow_pos (by decide))
  have hsearch (room n : Nat) (hn : 1 ≤ n) : Leads
      (search tie m q (magnitude (Binary.ratio m q).1 (Binary.ratio m q).2) n room).digits := by
    induction room generalizing n with
    | zero => exact leads_ofScaled (grid_pos hnum (Binary.ratio_den_pos m q) hn) _
    | succ room ih =>
      unfold search
      split
      · rename_i c hc
        exact leads_ofScaled (onGrid_pos hm hc) _
      · exact ih (n + 1) (Nat.le_succ_of_le hn)
  exact hsearch 17 1 (Nat.le_refl 1)

end Decimal

end Quasiquote
