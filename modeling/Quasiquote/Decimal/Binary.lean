namespace Quasiquote

/-!
# Binary floating point numbers, taken apart

A finite double is a sign, a natural number and a power of two.  Everything
that is printed about a float is computed from these.

* `Binary` — not a number, an infinity, or a signed `mantissa · 2 ^ exponent`;
* `Binary.ofFloat` — a double taken apart;
* `Binary.isWhole`, `Binary.wholePart` — the integers among the finite ones.
-/

/-- A double taken apart. -/
inductive Binary where
  | nan
  | infinite (negative : Bool)
  /-- The number `± mantissa · 2 ^ exponent`. -/
  | finite (negative : Bool) (mantissa : Nat) (exponent : Int)
deriving DecidableEq, Repr

/-- The natural number `2 ^ n`. -/
def twoTo (n : Nat) : Nat := Nat.pow 2 n

namespace Binary

/-- A double taken apart: eleven bits of exponent, then fifty-two of fraction. -/
def ofBits (bits : Nat) : Binary :=
  let negative := bits / twoTo 63 % 2 == 1
  let scale : Nat := bits / twoTo 52 % twoTo 11
  let fraction := bits % twoTo 52
  if scale = 2047 then
    if fraction = 0 then .infinite negative else .nan
  else if scale = 0 then .finite negative fraction (-1074)
  else .finite negative (twoTo 52 + fraction) ((scale : Int) - 1075)

/-- A double taken apart. -/
def ofFloat (x : Float) : Binary := ofBits x.toBits.toNat

/-- `m · 2 ^ q` as a quotient of natural numbers. -/
def ratio (m : Nat) (q : Int) : Nat × Nat :=
  (m * twoTo q.toNat, twoTo (-q).toNat)

/-- Whether `m · 2 ^ q` is an integer. -/
def isWhole (m : Nat) (q : Int) : Bool :=
  let (num, den) := ratio m q
  num % den == 0

/-- The integer part of `m · 2 ^ q`. -/
def wholePart (m : Nat) (q : Int) : Nat :=
  let (num, den) := ratio m q
  num / den

theorem ratio_den_pos (m : Nat) (q : Int) : 0 < (ratio m q).2 :=
  Nat.pow_pos (by decide)

end Binary

end Quasiquote
