import LoopNest.Block.Basic

/-!
# Kernels

A kernel is a block with a name and parameters: buffers, each with the shape by which it is indexed,
and scalars. Once it has been emitted for a target, it carries its source.

* `Buffer`, `Signature`, `Kernel`.
-/

namespace LoopNest

/-- A buffer parameter with its shape. -/
structure Buffer where
  var : Var
  shape : List Expr
deriving DecidableEq

/-- The name and the parameters of a kernel, in order. -/
structure Signature where
  name : String
  buffers : List Buffer
  scalars : List Var
deriving DecidableEq

/-- A lowered kernel, with its source if it has been emitted. -/
structure Kernel where
  signature : Signature
  body : Block
  source : Option String
deriving DecidableEq

end LoopNest
