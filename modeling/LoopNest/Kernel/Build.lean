import LoopNest.Block.Flatten
import LoopNest.C.Emit
import LoopNest.Trace.Monad

/-!
# Building kernels

A kernel is described by its parameters and by a program that records its body, given the root
views of its buffers and its scalars. Building it records the body, lowers it, flattens and folds
it as the options say, and emits it for a target.

* `Options`, `Definition`;
* `Block.flattenViews`: flattening by the roots of views;
* `Definition.lower`: the kernel of a definition;
* `Kernel.emitted`, `Definition.build`, `Definition.buildFor`: a kernel with its source.
-/

namespace LoopNest

/-- The passes after lowering. -/
structure Options where
  flatten : Bool
  simplify : Bool
deriving DecidableEq

/-- Both passes. -/
def Options.standard : Options := ⟨true, true⟩

/-- A kernel by its parameters and a program that records its body. -/
structure Definition (m : Type → Type) where
  /-- The number of the first variable that recording makes. -/
  fresh : Nat
  signature : Signature
  options : Options
  body : List View → List Var → Tracing m Unit

/-- The shapes of the storage behind views; of several views of one buffer the last counts. -/
def View.shapes (views : List View) : Shapes :=
  (views.map fun v => (v.base.buffer, v.base.shape)).reverse

/-- Flatten the accesses to the storage behind views. Slicing does not change the strides. -/
def Block.flattenViews (views : List View) (b : Block) : Block := b.flatten (View.shapes views)

/-- The root view of a buffer parameter. -/
def Buffer.view (b : Buffer) : View := .root b.var b.shape "global"

/-- The passes that the options ask for. -/
def Options.apply (o : Options) (views : List View) (b : Block) : Block :=
  let b := if o.flatten then b.flattenViews views else b
  if o.simplify then b.fold else b

namespace Definition

variable {m : Type → Type} [Monad m]

/-- The trace on which a kernel is recorded. -/
def start (d : Definition m) : Trace :=
  (d.signature.buffers.map Buffer.view).foldl Trace.bindView (Trace.start d.fresh)

/-- Record the body, then lower it and run the passes. -/
def lower (d : Definition m) : m (Except Error Kernel) := do
  let views := d.signature.buffers.map Buffer.view
  let (outcome, trace) ← (d.body views d.signature.scalars).run d.start
  return do
    outcome
    let body ← trace.toBlock
    return ⟨d.signature, d.options.apply views body, none⟩

end Definition

/-- A kernel with its source for a target. -/
def Kernel.emitted (target : Target) (k : Kernel) : Except Error Kernel := do
  return { k with source := some (← target.emitFunction k.signature k.body) }

/-- A lowered kernel with its source for a built-in target. -/
def Kernel.build (target : String) (k : Kernel) : Except Error Kernel := do
  k.emitted (← Target.named target)

namespace Definition

variable {m : Type → Type} [Monad m]

/-- A kernel with its source for a given target. -/
def buildFor (target : Target) (d : Definition m) : m (Except Error Kernel) := do
  return (← d.lower).bind (Kernel.emitted target)

/-- A kernel with its source for a built-in target. Nothing is recorded for an unknown target. -/
def build (target : String) (d : Definition m) : m (Except Error Kernel) :=
  match Target.named target with
  | .error e => pure (.error e)
  | .ok t => d.buildFor t

end Definition

end LoopNest
