import Quasiquote.Decimal.Binary

namespace Quasiquote

/-!
# Shortest decimals — the fewest digits that read back

Among the decimals that round to a given double, the shortest ones are those
with the fewest digits, and of these the nearest to the double is printed.  For
each count of digits only two decimals matter: the neighbours of the double on
the grid of that many digits.  All comparisons are exact.

* `Decimal` — digits and the place of the point;
* `Decimal.Gap` — the numbers that round to a double;
* `Decimal.shortest` — the decimal that stands for a double.
-/

/-- The number `0.d₁d₂… · 10 ^ point`. -/
structure Decimal where
  digits : List Char
  point : Int
deriving DecidableEq, Repr

/-- Which of two equally near decimals is taken. -/
inductive Tie where
  /-- The greater one. -/
  | up
  /-- The one whose last digit is even. -/
  | even
deriving DecidableEq, Repr

namespace Decimal

/-- The natural number `10 ^ n`. -/
def tenTo (n : Nat) : Nat := Nat.pow 10 n

/-- The numbers that round to a double, in quarters of its last place: those
    between `low` and `high`, which belong to it if `closed` holds. -/
structure Gap where
  low : Nat
  high : Nat
  closed : Bool

/-- The numbers that round to `m · 2 ^ q`.  Below a power of two the doubles lie
    twice as dense, so the gap is half as wide there. -/
def gap (m : Nat) (q : Int) : Gap :=
  let narrow := m = twoTo 52 ∧ q ≠ -1074
  ⟨4 * m - (if narrow then 1 else 2), 4 * m + 2, m % 2 == 0⟩

/-- How `c · 10 ^ e` compares with `x` quarters of `2 ^ q`, as two naturals. -/
def sides (c : Nat) (e : Int) (x : Nat) (q : Int) : Nat × Nat :=
  (c * tenTo e.toNat * twoTo (2 - q).toNat, x * twoTo (q - 2).toNat * tenTo (-e).toNat)

/-- Whether `c · 10 ^ e` rounds to the double with the gap `g`. -/
def Gap.holds (g : Gap) (q : Int) (c : Nat) (e : Int) : Bool :=
  let (c₁, low) := sides c e g.low q
  let (c₂, high) := sides c e g.high q
  if g.closed then low ≤ c₁ && c₂ ≤ high else low < c₁ && c₂ < high

/-- The exponent `k` with `10 ^ (k - 1) ≤ num / den < 10 ^ k`. -/
def magnitude (num den : Nat) : Int :=
  if den ≤ num then (toString (num / den)).length
  else
    let d := (toString (den / num)).length
    if num * tenTo (d - 1) = den then 2 - d else 1 - d

/-- The decimal `c · 10 ^ e` without zeros at its end. -/
def ofScaled (c : Nat) (e : Int) : Decimal :=
  let ds := (toString c).toList
  ⟨(ds.reverse.dropWhile (· == '0')).reverse, e + ds.length⟩

/-- The nearer of `c` and `c + 1` on the grid of width `10 ^ e`. -/
def nearer (tie : Tie) (m : Nat) (q : Int) (c : Nat) (e : Int) : Nat :=
  let (twice, middle) := sides (2 * c + 1) e (8 * m) q
  if middle < twice then c
  else if twice < middle then c + 1
  else match tie with
    | .up => c + 1
    | .even => if c % 2 = 0 then c else c + 1

/-- The neighbour of `m · 2 ^ q` on the grid of width `10 ^ e` that rounds to
    it, if there is one. -/
def onGrid (tie : Tie) (m : Nat) (q : Int) (e : Int) : Option Nat :=
  let (num, den) := Binary.ratio m q
  let c := num * tenTo (-e).toNat / (den * tenTo e.toNat)
  let g := gap m q
  match g.holds q c e, g.holds q (c + 1) e with
  | true, true => some (nearer tie m q c e)
  | true, false => some c
  | false, true => some (c + 1)
  | false, false => none

/-- The decimal with the fewest digits, but at least `n`, that rounds to
    `m · 2 ^ q`, where `10 ^ k` is just above that number.  After `room` grids
    the digits of the last one are taken without a test. -/
def search (tie : Tie) (m : Nat) (q k : Int) (n : Nat) : Nat → Decimal
  | 0 =>
    let (num, den) := Binary.ratio m q
    ofScaled (num * tenTo (n - k).toNat / (den * tenTo (k - n).toNat)) (k - n)
  | room + 1 =>
    match onGrid tie m q (k - n) with
    | some c => ofScaled c (k - n)
    | none => search tie m q k (n + 1) room

/-- The decimal that stands for `m · 2 ^ q`: the fewest digits that read back,
    and of those the nearest.  Seventeen digits are always enough. -/
def shortest (tie : Tie) (m : Nat) (q : Int) : Decimal :=
  let (num, den) := Binary.ratio m q
  search tie m q (magnitude num den) 1 17

end Decimal

end Quasiquote
