import LoopNest.Expr.Basic

/-!
# Integer routines

C divides toward zero, so division toward negative infinity and its remainder are functions of
their own, which a kernel gets in front if it needs them. Their bodies are formulas, from which the
text is printed.

* `C.Formula`, `C.Formula.text`: C expressions over names and literals;
* `C.Routine`, `C.Routine.source`: the two functions;
* `C.Routine.ofOperator?`: which operator needs which.
-/

namespace LoopNest.C

/-! ## Formulas -/

/-- The operators of formulas. Quotient and remainder are those of C. -/
inductive FormulaOp where
  | quot
  | rem
  | add
  | sub
  | less
  | differ
  | both
deriving DecidableEq

/-- The sign of an operator. -/
def FormulaOp.symbol : FormulaOp → String
  | quot => "/"
  | rem => "%"
  | add => "+"
  | sub => "-"
  | less => "<"
  | differ => "!="
  | both => "&&"

/-- A C expression. Parentheses stand where they are written. -/
inductive Formula where
  | name (s : String)
  | lit (n : Nat)
  | op (o : FormulaOp) (l r : Formula)
  | paren (f : Formula)
  | cond (test yes no : Formula)
deriving DecidableEq

/-- The text of a formula. -/
def Formula.text : Formula → String
  | name s => s
  | lit n => toString n
  | op o l r => l.text ++ " " ++ o.symbol ++ " " ++ r.text
  | paren f => "(" ++ f.text ++ ")"
  | cond t y n => t.text ++ " ? " ++ y.text ++ " : " ++ n.text

/-! ## Routines -/

/-- An integer function that C lacks. -/
inductive Routine where
  | floorDiv
  | floorMod
deriving DecidableEq

namespace Routine

/-- The routines in the order in which they are written. -/
def all : List Routine := [floorDiv, floorMod]

/-- The routine that an operator needs. -/
def ofOperator? : Operator → Option Routine
  | .floorDiv => some floorDiv
  | .floorMod => some floorMod
  | _ => none

/-- The name of the function. -/
def name : Routine → String
  | floorDiv => "stagir_floordiv"
  | floorMod => "stagir_floormod"

/-- The local variable. -/
def localName : Routine → String
  | floorDiv => "q"
  | floorMod => "r"

/-- What the local variable holds: quotient or remainder, cut toward zero. -/
def localValue : Routine → Formula
  | floorDiv => .op .quot (.name "a") (.name "b")
  | floorMod => .op .rem (.name "a") (.name "b")

/-- A name holds a negative number. -/
def negative (x : String) : Formula := .paren (.op .less (.name x) (.lit 0))

/-- The two names have different signs. -/
def signsDiffer (x y : String) : Formula := .paren (.op .differ (negative x) (negative y))

/-- What the function returns: the local variable, corrected where the division is not exact and the
signs differ. -/
def result : Routine → Formula
  | floorDiv =>
    .cond (.paren (.op .both
        (.op .differ (.op .rem (.name "a") (.name "b")) (.lit 0)) (signsDiffer "a" "b")))
      (.op .sub (.name "q") (.lit 1)) (.name "q")
  | floorMod =>
    .cond (.paren (.op .both (.op .differ (.name "r") (.lit 0)) (signsDiffer "r" "b")))
      (.op .add (.name "r") (.name "b")) (.name "r")

/-- The text of the function. -/
def source (h : Routine) : String :=
  "static inline int64_t " ++ h.name ++ "(int64_t a, int64_t b) \x7b\n" ++
    "  int64_t " ++ h.localName ++ " = " ++ h.localValue.text ++ ";\n" ++
    "  return " ++ h.result.text ++ ";\n" ++
    "\x7d\n"

end Routine

end LoopNest.C
