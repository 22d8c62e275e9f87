import LoopNest.Error
import LoopNest.Expr.Fold

/-!
# Views of buffers

A view is a window of several dimensions over a buffer. A root view lies on the storage itself. Any
other view was cut out of a parent: each dimension of the parent was either fixed at an offset or
kept, every `step`-th position from `start`. A position in a view is located in the storage from
view to parent, up to the root.

* `Selector`, `Cut`, `View`;
* `View.buffer`, `View.shape`, `View.storage`, `View.rank`, `View.base`: what a view is over, and
  how far it extends;
* `View.locate`: indices of a view as indices of its root.
-/

namespace LoopNest

/-- What is selected of one dimension: a position, or a slice whose missing parts are `0`, the
extent and `1`. -/
inductive Selector where
  | at (position : Expr)
  | span (start stop step : Option Expr)
deriving DecidableEq

/-- What became of one dimension of the parent. -/
inductive Cut where
  /-- The dimension is gone, its position fixed. -/
  | fixed (offset : Expr)
  /-- The dimension is kept with a new extent; position `k` lies at `start + k * step`. -/
  | strided (start step extent : Expr)
deriving DecidableEq

namespace Cut

/-- The dimension is kept. -/
def isStrided : Cut → Bool
  | fixed _ => false
  | strided _ _ _ => true

/-- The extent of a kept dimension. -/
def extent? : Cut → Option Expr
  | fixed _ => none
  | strided _ _ e => some e

/-- The position of a fixed dimension. -/
def offset? : Cut → Option Expr
  | fixed e => some e
  | strided _ _ _ => none

/-- Positions in the parent: the fixed ones as they are, and for each kept dimension the next free
index, scaled and folded. None if the free indices run out. -/
def place : List Cut → List Expr → Option (List Expr)
  | [], _ => some []
  | fixed e :: cuts, free => (place cuts free).map (e :: ·)
  | strided _ _ _ :: _, [] => none
  | strided start step _ :: cuts, i :: free =>
    (place cuts free).map ((start + i * step).fold :: ·)

end Cut

/-- A view: the storage itself, or what cuts leave of a parent. -/
inductive View where
  | root (buffer : Var) (shape : List Expr) (storage : String)
  | sliced (parent : View) (cuts : List Cut)
deriving DecidableEq

namespace View

/-- The variable of the storage. -/
def buffer : View → Var
  | .root v _ _ => v
  | sliced p _ => p.buffer

/-- The extents of the dimensions. -/
def shape : View → List Expr
  | .root _ s _ => s
  | sliced _ cuts => cuts.filterMap Cut.extent?

/-- The storage class. -/
def storage : View → String
  | .root _ _ s => s
  | sliced p _ => p.storage

/-- The number of dimensions. -/
def rank (v : View) : Nat := v.shape.length

/-- The view lies on the storage itself. -/
def isBase : View → Bool
  | .root _ _ _ => true
  | sliced _ _ => false

/-- The view that this one was cut out of. -/
def parent? : View → Option View
  | .root _ _ _ => none
  | sliced p _ => some p

/-- One cut for each dimension of the parent; none for a root. -/
def cuts : View → List Cut
  | .root _ _ _ => []
  | sliced _ cs => cs

/-- The view of the whole storage. -/
def base : View → View
  | .root v s c => .root v s c
  | sliced p _ => p.base

/-- Indices of the view as indices of its root. At the root they are folded. -/
def locate (v : View) (indices : List Expr) : Except Error (List Expr) :=
  if indices.length ≠ v.rank then .error (.shapeMismatch v.rank indices.length)
  else
    match v with
    | .root _ _ _ => .ok (indices.map Expr.fold)
    | sliced p cs =>
      match Cut.place cs indices with
      | none => .error (.shapeMismatch (sliced p cs).rank indices.length)
      | some origin => p.locate origin

end View

end LoopNest
