import LoopNest.Expr.Printer

/-!
# Iteration ranges

A range is a first value, a number of points and a step. Any of them may be symbolic.

* `Range`, `Range.upTo`, `Range.strided`;
* `Range.literal?`: extent and step, where both are literals;
* `LoopKind`: how a loop over a range is meant;
* `LoopIndex`: a variable running over a range.
-/

namespace LoopNest

/-- The `extent` values `begin`, `begin + step`, and so on. -/
structure Range where
  first : Expr
  extent : Expr
  step : Expr
deriving DecidableEq

namespace Range

/-- All integers from `a` up to, but not including, `b`. The difference is that of words. -/
def upTo (a b : Word) : Range :=
  ⟨.int a, .int (if b - a < 0 then 0 else b - a), .int 1⟩

/-- From `start` in steps of `step`, below `stop`. No point lies between for a step that does not
climb. The arithmetic is that of words. -/
def strided (start stop step : Word) : Range :=
  ⟨.int start,
    .int (if 0 < step ∧ start < stop then (stop - start + step - 1) / step else 0),
    .int step⟩

/-- Extent and step, where both are literals. -/
def literal? (r : Range) : Option (Word × Word) := do
  let extent ← r.extent.literal?
  let step ← r.step.literal?
  some (extent, step)

/-- The text of a range. -/
def text (r : Range) : String :=
  "range(" ++ r.first.text ++ ", " ++ r.extent.text ++ ", " ++ r.step.text ++ ")"

end Range

/-! ## Loops over ranges -/

/-- How a loop is meant: in any order, accumulating, written out at lowering, or alternating in
direction (which the target interprets). -/
inductive LoopKind where
  | spatial
  | reduce
  | unroll
  | zigzag
deriving DecidableEq

/-- The name of a kind of loop. -/
def LoopKind.text : LoopKind → String
  | .spatial => "spatial"
  | .reduce => "reduce"
  | .unroll => "unroll"
  | .zigzag => "zigzag"

/-- A variable running over a range, with a free-form tag for the target. -/
structure LoopIndex where
  var : Var
  range : Range
  tag : String
deriving DecidableEq

end LoopNest
