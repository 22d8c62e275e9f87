import LoopNest.Block.Basic
import LoopNest.Layout

/-!
# Flattening accesses

An access to a buffer of known shape with as many indices as the shape has dimensions, at least two,
becomes an access at one row-major offset. Shapes come from a table, to which every allocation of at
least two dimensions adds itself as it is met; such an allocation is cut down to its number of
elements. An entry stays for the rest of the block.

* `Shapes`, `Shapes.find?`: the table;
* `Expr.flatten`: the accesses of an expression;
* `Block.declare`: the table after a block;
* `Block.flatten`: the pass.
-/

namespace LoopNest

/-- Shapes of buffers, the latest entry first. -/
abbrev Shapes := List (Var × List Expr)

/-- The shape of a buffer by its latest entry. -/
def Shapes.find? (shapes : Shapes) (v : Var) : Option (List Expr) :=
  (List.find? (fun p => p.1 = v) shapes).map Prod.snd

/-- The indices of an access, made one offset where the buffer's shape has as many dimensions. -/
def Shapes.flatIndices (shapes : Shapes) (v : Var) (indices : List Expr) : List Expr :=
  if indices.length < 2 then indices
  else
    match shapes.find? v with
    | some shape => if shape.length = indices.length then [Layout.offset indices shape] else indices
    | none => indices

namespace Expr

/-- A load gets its flat indices; any other node stays. -/
def flattenRule (shapes : Shapes) : Expr → Expr
  | load v is => load v (shapes.flatIndices v is)
  | e => e

/-- Flatten the loads of an expression, those inside indices first. -/
def flatten (shapes : Shapes) : Expr → Expr := bottomUp (flattenRule shapes)

end Expr

namespace Block

/-- An allocation adds its shape if it has at least two dimensions. -/
def addShape (v : Var) (shape : List Expr) (shapes : Shapes) : Shapes :=
  if 1 < shape.length then (v, shape) :: shapes else shapes

/-- The table of shapes after a block. -/
def declare (shapes : Shapes) : Block → Shapes
  | seq a b => b.declare (a.declare shapes)
  | loop _ _ body => body.declare shapes
  | alloc v shape _ body => body.declare (addShape v shape shapes)
  | bind _ body => body.declare shapes
  | eval _ => shapes
  | store _ _ _ => shapes

/-- Flatten every access of a block. -/
def flatten (shapes : Shapes) : Block → Block
  | seq a b => seq (a.flatten shapes) (b.flatten (a.declare shapes))
  | loop k i body =>
    loop k { i with range := i.range.mapExprs (Expr.flatten shapes) } (body.flatten shapes)
  | alloc v shape storage body =>
    alloc v (if 1 < shape.length then [Layout.count shape] else shape.map (Expr.flatten shapes))
      storage (body.flatten (addShape v shape shapes))
  | bind bs body =>
    bind (bs.map fun b => { b with value := b.value.flatten shapes }) (body.flatten shapes)
  | eval e => eval (e.flatten shapes)
  | store v is e => store v (shapes.flatIndices v (is.map (Expr.flatten shapes))) (e.flatten shapes)

end Block

end LoopNest
