import LoopNest.Expr.Basic

/-!
# The variables of an expression

* `Expr.vars`: variables and loaded buffers in order of appearance.
-/

namespace LoopNest

namespace Expr

mutual

/-- The variables of an expression in order of appearance. -/
def vars : Expr → List Var
  | int _ | float _ | str _ => []
  | var v => [v]
  | binary _ a b => a.vars ++ b.vars
  | cast _ a => a.vars
  | load v is => v :: varsAll is
  | call _ _ as => varsAll as

/-- The variables of expressions in order of appearance. -/
def varsAll : List Expr → List Var
  | [] => []
  | e :: es => e.vars ++ varsAll es

end

end Expr

end LoopNest
