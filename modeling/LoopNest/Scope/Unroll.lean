import LoopNest.Block.Basic
import LoopNest.Error

/-!
# Writing loops out

An unrolled loop becomes one copy of its body for each point of its range, in order, with the point
in place of the variable. Extent and step must be literals. All ranges are checked before any is
expanded; the offsets of a range grow or fall steadily, so the last one bounds them all.

* `Copies`, `LoopIndex.copies`: the checked range of one index;
* `Copies.offset`, `Copies.expand`: the points, and the copies of a body;
* `Block.unroll`: several indices, the last declared one innermost.
-/

namespace LoopNest

/-- The points of an unrolled loop: `first + k * step` for `k` below the extent. -/
structure Copies where
  var : Var
  first : Expr
  extent : Word
  step : Word
deriving DecidableEq

namespace Copies

/-- Copy number `k`: a literal if the first point is one. -/
def offset (c : Copies) (k : Int) : Except Error Expr :=
  let overflow := Error.configuration (.copyOverflow c.var k c.step)
  match Word.ofInt? (k * c.step.toInt) with
  | none => .error overflow
  | some delta =>
    match c.first with
    | .int b =>
      match Word.add? b delta with
      | none => .error overflow
      | some n => .ok (.int n)
    | first => .ok (first + .int delta)

/-- The copies of a body, in order. -/
def expand (c : Copies) (body : Block) : Except Error Block := do
  let copies ← (List.range c.extent.toInt.toNat).mapM fun (k : Nat) => do
    return body.subst [(c.var, ← c.offset k)]
  return Block.ofList copies

end Copies

/-- The checked range of one index. -/
def LoopIndex.copies (i : LoopIndex) : Except Error Copies :=
  match i.range.literal? with
  | none => .error (.unsupportedOperation (.dynamicUnroll i.var i.range))
  | some (extent, step) =>
    if extent < 0 then .error (.configuration (.negativeExtent i.var extent))
    else do
      let c : Copies := ⟨i.var, i.range.first, extent, step⟩
      if 0 < extent then let _ ← c.offset (extent.toInt - 1)
      return c

/-- Write out loops over several indices. The innermost, which is the last, is expanded first, so
the copies come in row-major order. -/
def Block.unroll (indices : List LoopIndex) (body : Block) : Except Error Block := do
  let plan ← indices.mapM LoopIndex.copies
  plan.foldrM (fun c b => c.expand b) body

end LoopNest
