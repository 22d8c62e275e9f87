import LoopNest.Block.Basic
import LoopNest.Expr.Vars

/-!
# The variables of a block

* `Block.vars`: every variable of a block, introduced or used, in order of appearance.
-/

namespace LoopNest

/-- The variables of a range. -/
def Range.vars (r : Range) : List Var := r.first.vars ++ r.extent.vars ++ r.step.vars

/-- Every variable of a block, introduced or used, in order of appearance. -/
def Block.vars : Block → List Var
  | seq a b => a.vars ++ b.vars
  | loop _ i body => i.var :: (i.range.vars ++ body.vars)
  | alloc v shape _ body => v :: (Expr.varsAll shape ++ body.vars)
  | bind bs body => bs.flatMap (fun b => b.var :: b.value.vars) ++ body.vars
  | eval e => e.vars
  | store v is e => v :: (Expr.varsAll is ++ e.vars)

end LoopNest
