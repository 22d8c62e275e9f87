import LoopNest.Decimal.Shortest

/-!
# How a decimal number is laid out

The digits of a number are fixed by `Binary64.shortest`; a format decides only where the point goes.
Numbers of middling size are written with a point, and at least one digit on each side of it; all
others with one digit before the point and an exponent.

* `Layout`: the decisions of one format;
* `Layout.number`: digits and a power of ten as text;
* `Layout.text`: a finite double as text.
-/

namespace LoopNest.Decimal

/-- One format for numbers: which exponents are positional, and how an exponent is signed. -/
structure Layout where
  /-- Which of two equally near shortest decimals is written. -/
  tie : Tie
  /-- The least exponent written with a point alone; the greatest is 15. -/
  lowest : Int
  /-- The sign before an exponent that is not negative. -/
  plus : String

namespace Layout

/-- The number `0.`, a point among the digits, or the digits with zeros and `.0`. -/
def positional (ds : List Char) (e : Int) : List Char :=
  if e < 0 then
    '0' :: '.' :: List.replicate (-e - 1).toNat '0' ++ ds
  else
    let whole := (e + 1).toNat
    if ds.length ≤ whole then ds ++ List.replicate (whole - ds.length) '0' ++ ['.', '0']
    else ds.take whole ++ '.' :: ds.drop whole

/-- One digit, the others behind a point, and the exponent. -/
def scientific (l : Layout) (ds : List Char) (e : Int) : List Char :=
  let rest := ds.drop 1
  ds.take 1 ++ (if rest.isEmpty then [] else '.' :: rest) ++ 'e' ::
    ((if e < 0 then "-" else l.plus).toList ++ Nat.toDigits 10 e.natAbs)

/-- The text of `digits * 10 ^ power`. -/
def number (l : Layout) (digits : Nat) (power : Int) : List Char :=
  let ds := Nat.toDigits 10 digits
  let e := ds.length + power - 1
  if l.lowest ≤ e ∧ e < 16 then positional ds e else l.scientific ds e

/-- The text of a finite double. -/
def text (l : Layout) (x : Binary64) : String :=
  let sign := if x.sign then ['-'] else []
  if x.isZero then String.ofList (sign ++ ['0', '.', '0'])
  else
    let (digits, power) := x.shortest l.tie
    String.ofList (sign ++ l.number digits power)

end Layout

end LoopNest.Decimal
