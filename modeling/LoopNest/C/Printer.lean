import LoopNest.C.Routine
import LoopNest.C.Names
import LoopNest.Expr.Printer
import LoopNest.Target.Basic

/-!
# The text of C

Given identifiers for the variables and the spelling of a target, an expression is a text and a
statement is a list of lines. What a target shows of a free-form tag is a comment at the end of a
line, kept apart from the code.

* `Expr.textC`: an expression;
* `C.Line`, `C.Loop.header`, `C.Stmt.lines`: statements;
* `C.Stmt.routines`: the routines that a statement needs.
-/

namespace LoopNest

/-! ## Expressions -/

/-- A floating-point literal of single precision. -/
def Binary64.textC (x : Binary64) : String :=
  if x.isNaN then "NAN"
  else if x.isInfinite then if x.sign then "-INFINITY" else "INFINITY"
  else x.text ++ "f"

/-- The greater or the lesser of two operands, each written twice. -/
def C.choice (sign l r : String) : String :=
  "((" ++ l ++ ") " ++ sign ++ " (" ++ r ++ ") ? (" ++ l ++ ") : (" ++ r ++ "))"

/-- A binary operation on written operands. -/
def Operator.textC (op : Operator) (l r : String) : String :=
  match op with
  | .min => C.choice "<" l r
  | .max => C.choice ">" l r
  | op =>
    match C.Routine.ofOperator? op with
    | some h => h.name ++ "(" ++ l ++ ", " ++ r ++ ")"
    | none => "(" ++ l ++ " " ++ op.symbol ++ " " ++ r ++ ")"

namespace Expr

/-- Indices, each in brackets. -/
def brackets (indices : List String) : String :=
  String.join (indices.map fun i => "[" ++ i ++ "]")

section

variable (target : Target) (names : Var → String)

mutual

/-- The text of an expression in C. -/
def textC : Expr → String
  | int n => Word.text n
  | float x => x.textC
  | str s => Text.quote s
  | var v => names v
  | binary op a b => op.textC a.textC b.textC
  | cast t a => "((" ++ target.spell t ++ ")" ++ a.textC ++ ")"
  | load v is => names v ++ brackets (textsC is)
  | call _ f as => f ++ "(" ++ commas (textsC as) ++ ")"

/-- The texts of expressions in C. -/
def textsC : List Expr → List String
  | [] => []
  | e :: es => e.textC :: textsC es

end

end

end Expr

/-! ## Routines -/

namespace Expr

mutual

/-- The expression needs a routine. -/
def needs (h : C.Routine) : Expr → Bool
  | int _ | float _ | str _ | var _ => false
  | binary op a b => C.Routine.ofOperator? op == some h || a.needs h || b.needs h
  | cast _ a => a.needs h
  | load _ is => anyNeeds h is
  | call _ _ as => anyNeeds h as

/-- Some expression needs a routine. -/
def anyNeeds (h : C.Routine) : List Expr → Bool
  | [] => false
  | e :: es => e.needs h || anyNeeds h es

end

end Expr

namespace C

/-- The statement needs a routine. -/
def Stmt.needs (h : Routine) : Stmt → Bool
  | skip => false
  | seq a b => a.needs h || b.needs h
  | loop head body => head.first.needs h || head.bound.needs h || body.needs h
  | array _ shape _ body => Expr.anyNeeds h shape || body.needs h
  | consts bs body => bs.any (fun b => b.value.needs h) || body.needs h
  | eval e => e.needs h
  | assign _ is e => Expr.anyNeeds h is || e.needs h

/-- The routines that a statement needs. -/
def Stmt.routines (s : Stmt) : List Routine := Routine.all.filter fun h => s.needs h

/-! ## Lines -/

/-- A line of code at a depth, with a comment at its end if there is one. -/
structure Line where
  depth : Nat
  code : String
  note : Option String
deriving DecidableEq

/-- The text of a line. -/
def Line.text (width : Nat) (l : Line) : String :=
  String.ofList (List.replicate (l.depth * width) ' ') ++ l.code ++
    (match l.note with
      | none => ""
      | some note => " /* " ++ note ++ " */") ++ "\n"

/-- The text of lines. -/
def Line.render (width : Nat) (ls : List Line) : String := String.join (ls.map (Line.text width))

/-- A line without a comment. -/
def plain (depth : Nat) (code : String) : Line := ⟨depth, code, none⟩

namespace Loop

/-- The loop runs while its counter is on this side of the bound. -/
def comparison (l : Loop) : String := if 0 < l.step then "<" else ">"

/-- How the counter moves on. -/
def advance (l : Loop) (counter : String) : String :=
  if l.step = 1 then "++" ++ counter
  else if l.step = -1 then "--" ++ counter
  else if 0 < l.step then counter ++ " += " ++ Word.text l.step
  else counter ++ " -= " ++ toString l.step.toInt.natAbs

/-- The header of a loop. -/
def header (target : Target) (names : Var → String) (l : Loop) : String :=
  let counter := names l.var
  "for (" ++ target.indexType ++ " " ++ counter ++ " = " ++ l.first.textC target names ++ "; " ++
    counter ++ " " ++ l.comparison ++ " " ++ l.bound.textC target names ++ "; " ++
    l.advance counter ++ ") \x7b"

/-- The comment on a loop: its kind, and its tag if there is one. -/
def note (l : Loop) : String := if l.tag.isEmpty then l.kind.text else l.kind.text ++ " " ++ l.tag

end Loop

/-- The comment on a local array: its storage class, unless it is the usual one. -/
def storageNote (storage : String) : Option String :=
  if storage = "local" then none else some storage

/-- The declaration of a local array. -/
def declaration (target : Target) (names : Var → String) (v : Var) (shape : List Expr) : String :=
  target.spell v.type ++ " " ++ names v ++ Expr.brackets (Expr.textsC target names shape) ++ ";"

/-- The declaration of a named value. -/
def constant (target : Target) (names : Var → String) (b : Binding) : String :=
  "const " ++ target.spell b.var.type ++ " " ++ names b.var ++ " = " ++
    b.value.textC target names ++ ";"

/-- The lines of a statement at a depth. -/
def Stmt.lines (target : Target) (names : Var → String) (depth : Nat) : Stmt → List Line
  | skip => []
  | seq a b => a.lines target names depth ++ b.lines target names depth
  | loop head body =>
    (if head.kind = .unroll then [plain depth "#pragma unroll"] else []) ++
      ⟨depth, head.header target names, some head.note⟩ ::
        (body.lines target names (depth + 1) ++ [plain depth "\x7d"])
  | array v shape storage body =>
    plain depth "\x7b" :: ⟨depth + 1, declaration target names v shape, storageNote storage⟩ ::
      (body.lines target names (depth + 1) ++ [plain depth "\x7d"])
  | consts bs body =>
    plain depth "\x7b" :: (bs.map (fun b => plain (depth + 1) (constant target names b)) ++
      body.lines target names (depth + 1) ++ [plain depth "\x7d"])
  | eval e => [plain depth (e.textC target names ++ ";")]
  | assign v is e =>
    [plain depth (names v ++ Expr.brackets (Expr.textsC target names is) ++ " = " ++
      e.textC target names ++ ";")]

end C

end LoopNest
