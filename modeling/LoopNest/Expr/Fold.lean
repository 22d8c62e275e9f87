import LoopNest.Expr.Pass

/-!
# Folding integer arithmetic

Two integer literals under an arithmetic operator become their result, if it is a word. Between
operands of integer type the identities `0 + x`, `x + 0`, `x - 0`, `1 * x`, `x * 1`, `x // 1` give
`x`, and `0 * x`, `x * 0` give `0` if no call would be lost. Comparisons, floating-point arithmetic
and calls are never folded.

* `Expr.hasEffect`: an expression contains a call;
* `Operator.fold?`: the result of an operator on two literals;
* `Expr.foldOperation`: an operator on folded operands;
* `Expr.fold`: the pass.
-/

namespace LoopNest

/-- The result of an operator on two integer literals, where it is folded. -/
def Operator.fold? (op : Operator) (a b : Word) : Option Word :=
  match op with
  | .add => Word.add? a b
  | .sub => Word.sub? a b
  | .mul => Word.mul? a b
  | .floorDiv => Word.floorDiv? a b
  | .floorMod => Word.floorMod? a b
  | .min => some (if a ≤ b then a else b)
  | .max => some (if a ≤ b then b else a)
  | .lt | .le | .eq => none

namespace Expr

mutual

/-- The expression contains a call, which may have effects. -/
def hasEffect : Expr → Bool
  | call _ _ _ => true
  | binary _ a b => a.hasEffect || b.hasEffect
  | cast _ a => a.hasEffect
  | load _ is => anyEffect is
  | int _ | float _ | str _ | var _ => false

/-- Some expression of the list contains a call. -/
def anyEffect : List Expr → Bool
  | [] => false
  | e :: es => e.hasEffect || anyEffect es

end

/-- An operator on operands of which at most one is a literal: an identity of integer arithmetic
where one applies. -/
def foldIdentity (op : Operator) (a b : Expr) : Expr :=
  if a.type.isInt && b.type.isInt then
    match op, a.literal?, b.literal? with
    | .add, some 0, _ => b
    | .add, _, some 0 => a
    | .sub, _, some 0 => a
    | .mul, some 1, _ => b
    | .mul, _, some 1 => a
    | .floorDiv, _, some 1 => a
    | .mul, some 0, _ => if a.hasEffect || b.hasEffect then binary op a b else int 0
    | .mul, _, some 0 => if a.hasEffect || b.hasEffect then binary op a b else int 0
    | _, _, _ => binary op a b
  else binary op a b

/-- An operator on folded operands. -/
def foldOperation (op : Operator) (a b : Expr) : Expr :=
  match a.literal?, b.literal? with
  | some m, some n =>
    match op.fold? m n with
    | some r => int r
    | none => binary op a b
  | _, _ => foldIdentity op a b

/-- Fold the operator at the root; any other node stays. -/
def foldRule : Expr → Expr
  | binary op a b => foldOperation op a b
  | e => e

/-- Fold the integer arithmetic of an expression. -/
def fold : Expr → Expr := bottomUp foldRule

end Expr

end LoopNest
