import LoopNest.Expr.Basic

/-!
# Passes over expressions

Every pass builds a tree anew from its leaves and applies one rule at each node, after its operands.

* `Expr.bottomUp`, `Expr.bottomUpAll`: the pass of a rule, over an expression and over a list.
-/

namespace LoopNest

namespace Expr

mutual

/-- Apply `rule` at every node, operands first. -/
def bottomUp (rule : Expr → Expr) : Expr → Expr
  | int n => rule (int n)
  | float x => rule (float x)
  | str s => rule (str s)
  | var v => rule (var v)
  | binary op a b => rule (binary op (a.bottomUp rule) (b.bottomUp rule))
  | cast t a => rule (cast t (a.bottomUp rule))
  | load v is => rule (load v (bottomUpAll rule is))
  | call t f as => rule (call t f (bottomUpAll rule as))

/-- Apply `rule` throughout a list. -/
def bottomUpAll (rule : Expr → Expr) : List Expr → List Expr
  | [] => []
  | e :: es => e.bottomUp rule :: bottomUpAll rule es

end

@[simp] theorem bottomUpAll_eq_map (rule : Expr → Expr) (es : List Expr) :
    bottomUpAll rule es = es.map (bottomUp rule) := by
  induction es with
  | nil => rfl
  | cons e es ih => rw [bottomUpAll, ih, List.map_cons]

end Expr

end LoopNest
