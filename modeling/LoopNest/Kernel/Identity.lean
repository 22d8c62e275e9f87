import LoopNest.Blake3
import LoopNest.Block.Printer
import LoopNest.Block.Vars
import LoopNest.Kernel.Basic

/-!
# What a kernel is known by

The printed signature and body identify a kernel. They show display names and no variable numbers,
so two recordings of one kernel have one identity; its hash addresses the kernel.

* `Kernel.identity`, `Kernel.hash`;
* `Kernel.vars`: every variable of a kernel.
-/

namespace LoopNest

namespace Kernel

/-- A buffer parameter in the identity. -/
def bufferText (b : Buffer) : String :=
  "|" ++ b.var.text ++ ":" ++ b.var.type.text ++ "[" ++ ",".intercalate (Expr.texts b.shape) ++ "]"

/-- A scalar parameter in the identity. -/
def scalarText (v : Var) : String := "|" ++ v.text ++ ":" ++ v.type.text

/-- The text by which a kernel is known. -/
def identity (k : Kernel) : String :=
  k.signature.name ++ String.join (k.signature.buffers.map bufferText) ++
    String.join (k.signature.scalars.map scalarText) ++ "\n" ++ k.body.text

/-- The hash of the identity, in hexadecimal. -/
def hash (k : Kernel) : String := Blake3.hexDigest k.identity

/-- Every variable of a kernel. -/
def vars (k : Kernel) : List Var :=
  k.signature.buffers.flatMap (fun b => b.var :: Expr.varsAll b.shape) ++ k.signature.scalars ++
    k.body.vars

end Kernel

end LoopNest
