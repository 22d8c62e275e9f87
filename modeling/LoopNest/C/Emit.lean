import LoopNest.C.Printer
import LoopNest.Kernel.Basic

/-!
# Emitting kernels

A block is emitted as statements alone, or as a kernel: headers, the routines it needs, and one
function. Names are given to the function first, then to the parameters, then to the variables of
the body. The dialect for Arm Cortex-M puts a banner in front.

* `Target.emit`: statements alone;
* `Target.emitFunction`: a kernel function.
-/

namespace LoopNest

namespace C

/-- A buffer parameter. -/
def bufferParam (target : Target) (names : Var → String) (v : Var) : String :=
  target.spell v.type ++ " *" ++
    (if target.restrictKeyword.isEmpty then "" else target.restrictKeyword ++ " ") ++ names v

/-- A scalar parameter. -/
def scalarParam (target : Target) (names : Var → String) (v : Var) : String :=
  target.spell v.type ++ " " ++ names v

/-- The headers, with an empty line after them. -/
def includes (target : Target) : String :=
  String.join (target.includes.map fun h => "#include <" ++ h ++ ">\n") ++
    (if target.includes.isEmpty then "" else "\n")

/-- The routines, with an empty line after each. -/
def routineSources (hs : List Routine) : String := String.join (hs.map fun h => h.source ++ "\n")

/-- A kernel function with what it needs in front. -/
def function (target : Target) (sig : Signature) (s : Stmt) : String :=
  let (name, start) := Names.empty.reserve sig.name
  let names := (start.addAll (sig.buffers.map Buffer.var ++ sig.scalars ++ s.vars)).of
  let params := sig.buffers.map (fun b => bufferParam target names b.var) ++
    sig.scalars.map (scalarParam target names)
  includes target ++ routineSources s.routines ++
    "void " ++ name ++ "(" ++ (if params.isEmpty then "void" else Expr.commas params) ++
    ") \x7b\n" ++
    Line.render target.indentWidth.toNat (s.lines target names 1) ++ "\x7d\n"

/-- What the dialect puts in front of a kernel. -/
def banner (target : Target) (sig : Signature) : String :=
  match target.dialect with
  | .c => ""
  | .armM => "/* " ++ target.displayName ++ " kernel `" ++ sig.name ++ "` */\n"

end C

namespace Target

/-- A block as a C statement, or the construct that the target cannot express. -/
def accept (target : Target) (body : Block) : Except Error C.Stmt :=
  (body.toC target.supportsZigzag []).mapError (.unsupportedConstruct target.name)

/-- The statements of a block. -/
def emit (target : Target) (body : Block) : Except Error String := do
  let s ← target.accept body
  let names := (C.Names.empty.addAll s.vars).of
  return C.Line.render target.indentWidth.toNat (s.lines target names 0)

/-- A kernel function with the given block as its body. -/
def emitFunction (target : Target) (sig : Signature) (body : Block) : Except Error String := do
  let s ← target.accept body
  return C.banner target sig ++ C.function target sig s

end Target

end LoopNest
