import Quasiquote.Decimal.Shortest

namespace Quasiquote

/-!
# Decimal layouts — how a float is written out

Every place that prints a float prints the same digits and differs only in where
the point goes, when an exponent is used, and how the special numbers are named.

* `Layout` — the decisions of one format;
* `Layout.plain`, `Layout.inspect`, `Layout.json` — the formats in use;
* `Layout.render` — a float written in a format;
* `Decimal.exact` — all digits of a whole number, as program text needs them;
* `Decimal.toFloat` — the double nearest to a decimal.
-/

/-- The decisions of one number format. -/
structure Layout where
  /-- Which of two equally near shortest decimals is written. -/
  tie : Tie
  /-- The least and the greatest place of the point without an exponent; no
      bounds if absent. -/
  positional : Option (Int × Int)
  /-- Whether a whole number ends in `.0`. -/
  pointZero : Bool
  /-- Whether a positive exponent has a sign. -/
  plus : Bool

namespace Layout

/-- Never an exponent, never a needless point. -/
def plain : Layout := ⟨.up, none, false, false⟩

/-- An exponent from `10¹⁶` on and below `10⁻⁴`. -/
def inspect : Layout := ⟨.up, some (-3, 16), true, false⟩

/-- An exponent from `10¹⁶` on and below `10⁻⁵`, with its sign. -/
def json : Layout := ⟨.even, some (-4, 16), true, true⟩

/-- The digits around the point, and no exponent. -/
def positionalText (l : Layout) (d : Decimal) : List Char :=
  if d.point ≤ 0 then
    '0' :: '.' :: (List.replicate (-d.point).toNat '0' ++ d.digits)
  else
    let whole := d.point.toNat
    if d.digits.length ≤ whole then
      d.digits ++ List.replicate (whole - d.digits.length) '0' ++
        (if l.pointZero then ['.', '0'] else [])
    else d.digits.take whole ++ '.' :: d.digits.drop whole

/-- One digit before the point, and an exponent. -/
def scientificText (l : Layout) (d : Decimal) : List Char :=
  let e := d.point - 1
  let sign := if e < 0 then ['-'] else if l.plus then ['+'] else []
  let tail := d.digits.drop 1
  d.digits.take 1 ++ (if tail.isEmpty then [] else '.' :: tail) ++
    'e' :: (sign ++ (toString e.natAbs).toList)

/-- A positive number, given by its digits. -/
def decimalText (l : Layout) (d : Decimal) : List Char :=
  match l.positional with
  | none => l.positionalText d
  | some (low, high) =>
    if low ≤ d.point && d.point ≤ high then l.positionalText d else l.scientificText d

/-- A float written out. -/
def render (l : Layout) (x : Float) : String :=
  match Binary.ofFloat x with
  | .nan => "NaN"
  | .infinite negative => if negative then "-inf" else "inf"
  | .finite negative m q =>
    let text :=
      if m = 0 then (if l.pointZero then ['0', '.', '0'] else ['0'])
      else l.decimalText (Decimal.shortest l.tie m q)
    String.ofList (if negative then '-' :: text else text)

end Layout

namespace Decimal

/-- All digits of a whole number and `.0`, and the shortest digits of any other
    float: the form of floats in program text. -/
def exact (x : Float) : String :=
  match Binary.ofFloat x with
  | .finite negative m q =>
    if Binary.isWhole m q then
      (if negative then "-" else "") ++ toString (Binary.wholePart m q) ++ ".0"
    else Layout.plain.render x
  | _ => Layout.plain.render x

/-- The number that a run of decimal digits stands for. -/
def natOfDigits (ds : List Char) : Nat :=
  ds.foldl (fun n d => 10 * n + (d.toNat - '0'.toNat)) 0

/-- The double nearest to `± whole.fraction`. -/
def toFloat (negative : Bool) (whole fraction : List Char) : Float :=
  let x := Float.ofScientific (natOfDigits (whole ++ fraction)) true fraction.length
  if negative then -x else x

end Decimal

end Quasiquote
