import LoopNest.Decimal.Layout
import LoopNest.Json.Printer
import LoopNest.Kernel.Basic

/-!
# Kernels as JSON

A kernel is written with everything in it: parameters, body and source, and with the numbers of its
variables.

* `Expr.toJson`, `Block.toJson`, `Kernel.toJson`;
* `Kernel.artifact`: the written form.
-/

namespace LoopNest

/-- JSON numbers have a point from `0.00001` up to, but not including, ten to the sixteenth. -/
def Json.floatLayout : Decimal.Layout := ⟨.even, -5, "+"⟩

/-- A floating-point literal; there is none for NaN and the infinities. -/
def Binary64.toJson (x : Binary64) : Json :=
  if x.isNaN || x.isInfinite then .null else .decimal (Json.floatLayout.text x)

/-- A variable. -/
def Var.toJson (v : Var) : Json :=
  .object [("id", .int v.id), ("name", .text v.name), ("dtype", .text v.type.text)]

/-- The name of an operator. -/
def Operator.tag : Operator → String
  | add => "add"
  | sub => "sub"
  | mul => "mul"
  | floorDiv => "floor_div"
  | floorMod => "mod"
  | min => "min"
  | max => "max"
  | lt => "lt"
  | le => "le"
  | eq => "eq"

namespace Expr

mutual

/-- An expression. -/
def toJson : Expr → Json
  | int n => .object [("int", .int n.toInt)]
  | float x => .object [("float", x.toJson)]
  | str s => .object [("str", .text s)]
  | var v => .object [("var", v.toJson)]
  | binary op a b =>
    .object [("binary", .object [("op", .text op.tag), ("lhs", a.toJson), ("rhs", b.toJson)])]
  | cast t a => .object [("cast", .object [("dtype", .text t.text), ("value", a.toJson)])]
  | load v is => .object [("load", .object [("var", v.toJson), ("indices", .arr (toJsonAll is))])]
  | call t f as =>
    .object [("call", .object
      [("dtype", .text t.text), ("name", .text f), ("args", .arr (toJsonAll as))])]

/-- Expressions. -/
def toJsonAll : List Expr → List Json
  | [] => []
  | e :: es => e.toJson :: toJsonAll es

end

/-- Expressions as a JSON list. -/
def listJson (es : List Expr) : Json := .arr (toJsonAll es)

end Expr

/-- A range. -/
def Range.toJson (r : Range) : Json :=
  .object [("begin", r.first.toJson), ("extent", r.extent.toJson), ("step", r.step.toJson)]

/-- A binding. -/
def Binding.toJson (b : Binding) : Json :=
  .object [("var", b.var.toJson), ("expr", b.value.toJson)]

/-- A block. -/
def Block.toJson : Block → Json
  | seq a b => .object [("seq", .arr [a.toJson, b.toJson])]
  | loop k i body =>
    .object [("for", .object [
      ("iter", .object
        [("var", i.var.toJson), ("range", i.range.toJson), ("kind", .text k.text)]),
      ("body", body.toJson),
      ("binding", .text i.tag)])]
  | alloc v shape storage body =>
    .object [("alloc", .object [
      ("var", v.toJson),
      ("shape", Expr.listJson shape),
      ("scope", .text storage),
      ("body", body.toJson)])]
  | bind bs body =>
    .object [("remap", .object
      [("bindings", .arr (bs.map Binding.toJson)), ("body", body.toJson)])]
  | eval e => .object [("evaluate", e.toJson)]
  | store v is e =>
    .object [("store", .object
      [("var", v.toJson), ("indices", Expr.listJson is), ("value", e.toJson)])]

/-- A buffer parameter. -/
def Buffer.toJson (b : Buffer) : Json :=
  .object [("var", b.var.toJson), ("shape", Expr.listJson b.shape)]

namespace Kernel

/-- A kernel. -/
def toJson (k : Kernel) : Json :=
  .object [
    ("name", .text k.signature.name),
    ("bufferParams", .arr (k.signature.buffers.map Buffer.toJson)),
    ("scalarParams", .arr (k.signature.scalars.map Var.toJson)),
    ("body", k.body.toJson),
    ("source", match k.source with
      | none => .null
      | some s => .text s)]

/-- The written form of a kernel. -/
def artifact (k : Kernel) : String := k.toJson.pretty

end Kernel

end LoopNest
