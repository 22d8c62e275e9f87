import LoopNest.Decimal.Layout
import LoopNest.Expr.Basic
import LoopNest.Text.Quoted

/-!
# The text of an expression

Operators stand between their operands in parentheses, but for `min` and `max`, which are written as
functions. Floating-point literals have the fewest digits that read back; text literals are quoted.

* `Expr.floatLayout`, `Binary64.text`: floating-point literals;
* `Expr.text`, `Expr.texts`: expressions and lists of them;
* `Expr.listing`: a list of expressions with commas between.
-/

namespace LoopNest

/-- A literal is written with a point from `0.0001` up to, but not including, ten to the
sixteenth. -/
def Expr.floatLayout : Decimal.Layout := ⟨.up, -4, ""⟩

/-- The text of a floating-point literal. -/
def Binary64.text (x : Binary64) : String :=
  if x.isNaN then "NaN"
  else if x.isInfinite then if x.sign then "-inf" else "inf"
  else Expr.floatLayout.text x

namespace Expr

/-- Items with commas between. -/
def commas (items : List String) : String := ", ".intercalate items

mutual

/-- The text of an expression. -/
def text : Expr → String
  | int n => Word.text n
  | float x => x.text
  | str s => Text.quote s
  | var v => v.text
  | binary .min a b => "min(" ++ a.text ++ ", " ++ b.text ++ ")"
  | binary .max a b => "max(" ++ a.text ++ ", " ++ b.text ++ ")"
  | binary op a b => "(" ++ a.text ++ " " ++ op.symbol ++ " " ++ b.text ++ ")"
  | cast t a => "cast<" ++ t.text ++ ">(" ++ a.text ++ ")"
  | load v is => v.text ++ "[" ++ commas (texts is) ++ "]"
  | call _ f as => f ++ "(" ++ commas (texts as) ++ ")"

/-- The texts of a list of expressions. -/
def texts : List Expr → List String
  | [] => []
  | e :: es => e.text :: texts es

end

theorem texts_eq_map (es : List Expr) : texts es = es.map text := by
  induction es with
  | nil => rfl
  | cons e es ih => rw [texts, ih, List.map_cons]

/-- A list of expressions with commas between. -/
def listing (es : List Expr) : String := commas (texts es)

end Expr

end LoopNest
