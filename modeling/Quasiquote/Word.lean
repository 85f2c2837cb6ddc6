namespace Quasiquote

/-!
# Words — the integers of the language

The integers of programs are those of sixty-four bits with a sign.  Arithmetic is
exact and fails where the exact result is no such integer.

* `Word.bound`, `Word.count` — where they end, and how many there are;
* `Word.fits` — whether an integer is one of them;
* `Word.exact` — an integer, if it is one of them.
-/

namespace Word

/-- The least integer above all words. -/
def bound : Int := 0x8000000000000000

/-- How many words there are. -/
def count : Nat := 0x10000000000000000

/-- Whether an integer has sixty-four bits with a sign. -/
def fits (i : Int) : Bool := -bound ≤ i && i < bound

/-- An exact result, if it fits. -/
def exact (i : Int) : Option Int := if fits i then some i else none

theorem fits_iff {i : Int} : fits i = true ↔ -bound ≤ i ∧ i < bound := by
  simp [fits]

theorem exact_eq_some_iff {i j : Int} :
    exact i = some j ↔ i = j ∧ -bound ≤ i ∧ i < bound := by
  rw [← fits_iff]
  by_cases h : fits i = true <;> simp [exact, h]

end Word

end Quasiquote
