import LoopNest.Binary64

/-!
# The fewest decimal digits that read back

A finite double stands for every real that rounds to it. Measured in units of `10 ^ -1076`, the
double and the two ends of that neighbourhood are natural numbers, so the search for the shortest
decimal is exact arithmetic on naturals: the coarsest power of ten with a multiple in the
neighbourhood wins, and of two such multiples the nearer one.

* `Neighbourhood`, `Neighbourhood.nearest?`: the best multiple of a grid inside a neighbourhood;
* `Neighbourhood.shortest`: the coarsest grid that has one;
* `Binary64.shortest`: the digits and the decimal exponent of a finite double.
-/

namespace LoopNest

namespace Decimal

/-- Which of two equally near candidates is taken. -/
inductive Tie where
  | up
  | even
deriving DecidableEq

/-- The numbers that round to `value`: from `low` to `high`, with the ends if `closed`. -/
structure Neighbourhood where
  low : Nat
  value : Nat
  high : Nat
  closed : Bool

namespace Neighbourhood

/-- The number `n` rounds to the value. -/
def contains (i : Neighbourhood) (n : Nat) : Bool :=
  if i.closed then decide (i.low ≤ n ∧ n ≤ i.high) else decide (i.low < n ∧ n < i.high)

/-- The factor `d` for which `d * g` is the multiple of `g` nearest to the value, among the two
multiples around the value that round to it. -/
def nearest? (i : Neighbourhood) (tie : Tie) (g : Nat) : Option Nat :=
  let d := i.value / g
  match i.contains (d * g), i.contains ((d + 1) * g) with
  | false, false => none
  | true, false => some d
  | false, true => some (d + 1)
  | true, true =>
    match compare (2 * (i.value % g)) g, tie with
    | .lt, _ => some d
    | .gt, _ => some (d + 1)
    | .eq, .up => some (d + 1)
    | .eq, .even => some (if d % 2 = 0 then d else d + 1)

/-- The coarsest grid `10 ^ p`, `p` at most the given power, that offers a candidate; with it the
factor. The grid of the units themselves offers the value. -/
def shortest (i : Neighbourhood) (tie : Tie) : Nat → Nat × Nat
  | 0 => (i.value, 0)
  | p + 1 =>
    match i.nearest? tie (10 ^ (p + 1)) with
    | some d => (d, p + 1)
    | none => i.shortest tie p

end Neighbourhood

end Decimal

open Decimal

/-- The reals that round to a finite positive double, in units of `10 ^ -1076`. -/
def Binary64.neighbourhood (x : Binary64) : Neighbourhood :=
  let unit := Nat.pow 5 1076 <<< x.scale
  { low := (4 * x.significand - if x.atBoundary then 1 else 2) * unit
    value := 4 * x.significand * unit
    high := (4 * x.significand + 2) * unit
    closed := x.significand % 2 == 0 }

/-- The shortest decimal of a finite positive double, as digits and the power of ten they count. -/
def Binary64.shortest (x : Binary64) (tie : Tie) : Nat × Int :=
  let i := x.neighbourhood
  let (d, p) := i.shortest tie (Nat.toDigits 10 i.value).length
  (d, (p : Int) - 1076)

end LoopNest
