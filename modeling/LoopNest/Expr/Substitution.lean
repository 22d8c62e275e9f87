import LoopNest.Expr.Pass

/-!
# Substitution

Variables in expression position are replaced by expressions. Buffers of loads stay, and what is put
in is not searched again.

* `Substitution`, `Substitution.find?`: variables with their replacements;
* `Expr.subst`: the pass.
-/

namespace LoopNest

/-- Variables with their replacements. The last entry for a variable counts. -/
abbrev Substitution := List (Var × Expr)

/-- The replacement of a variable. -/
def Substitution.find? (σ : Substitution) (v : Var) : Option Expr :=
  (σ.reverse.find? fun p => p.1 = v).map Prod.snd

namespace Expr

/-- A variable becomes its replacement; any other node stays. -/
def substRule (σ : Substitution) : Expr → Expr
  | var v => (σ.find? v).getD (var v)
  | e => e

/-- Replace variables in expression position. -/
def subst (σ : Substitution) : Expr → Expr := bottomUp (substRule σ)

end Expr

end LoopNest
