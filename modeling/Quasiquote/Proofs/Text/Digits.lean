import Quasiquote.Decimal.Layout
import Quasiquote.Text.Pieces

namespace Quasiquote

/-!
# Digits — numbers in texts

Names of units and placeholders end in a number, which can be read off the text.

* `Digits.ofNat` — the digits of a number;
* `Digits.natOfDigits_ofNat` — the number that its digits stand for;
* `Digits.append_inj` — where a number ends a text whose front ends in no digit, both
  can be told from the text.
-/

namespace Digits

/-- The digits of a number. -/
def ofNat (n : Nat) : List Char := Nat.toDigits 10 n

@[simp] theorem toList_toString (n : Nat) : (toString n).toList = ofNat n := by
  show (Nat.repr n).toList = _
  simp [Nat.repr, ofNat]

theorem isDigit_of_mem {n : Nat} {c : Char} (h : c ∈ ofNat n) : c.isDigit :=
  Nat.isDigit_of_mem_toDigits (by decide) (by decide) h

theorem ofNat_ne_nil (n : Nat) : ofNat n ≠ [] := by
  unfold ofNat
  rw [Nat.toDigits_eq_if (by decide)]
  split <;> simp

/-- The number that its digits stand for. -/
theorem natOfDigits_ofNat (n : Nat) : Decimal.natOfDigits (ofNat n) = n := by
  have : Decimal.natOfDigits (ofNat n) = Nat.ofDigitChars 10 (ofNat n) 0 := by
    rw [Nat.ofDigitChars_eq_foldl]
    simp only [Decimal.natOfDigits, Nat.mul_comm]
  rw [this]
  exact Nat.ofDigitChars_ten_toDigits

theorem ofNat_inj {n m : Nat} (h : ofNat n = ofNat m) : n = m := by
  rw [← natOfDigits_ofNat n, h, natOfDigits_ofNat]

/-- Where digits end a text whose front ends in no digit, they can be told from the
    text. -/
theorem append_inj {a b ds es : List Char} {c d : Char} (hc : c.isDigit = false)
    (hd : d.isDigit = false) (hds : ∀ x ∈ ds, x.isDigit) (hes : ∀ x ∈ es, x.isDigit)
    (h : a ++ c :: ds = b ++ d :: es) : ds = es := by
  have hback {a ds : List Char} {c : Char} (hc : c.isDigit = false) (hds : ∀ x ∈ ds, x.isDigit) :
      (a ++ c :: ds).reverse.takeWhile Char.isDigit = ds.reverse := by
    have hall : ∀ x ∈ ds.reverse, x.isDigit := fun x hx => hds x (List.mem_reverse.1 hx)
    rw [List.reverse_append, List.reverse_cons, List.append_assoc,
      List.takeWhile_append_of_pos hall]
    simp [hc]
  have hrev := congrArg (fun cs => cs.reverse.takeWhile Char.isDigit) h
  simp only [hback hc hds, hback hd hes] at hrev
  exact List.reverse_inj.1 hrev

end Digits

end Quasiquote
