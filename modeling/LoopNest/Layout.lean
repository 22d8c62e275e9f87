import LoopNest.Expr.Fold

/-!
# Row-major layout

A tensor of a given shape is stored with its last dimension contiguous: an index is worth the
product of the dimensions after its own.

* `Layout.strides`, `Layout.offset`, `Layout.count`: strides, offset of an element, number of
  elements, each folded.
-/

namespace LoopNest.Layout

/-- The stride of every dimension: one for the last, and for each other the stride of the next times
the extent of the next. -/
def strides : List Expr → List Expr
  | [] => []
  | [_] => [.int 1]
  | _ :: d :: ds =>
    match strides (d :: ds) with
    | [] => []
    | s :: ss => (s * d).fold :: s :: ss

/-- The terms `index * stride`, in order. -/
def terms (indices shape : List Expr) : List Expr :=
  List.zipWith (· * ·) indices (strides shape)

/-- The sum of the terms from left to right, folded; zero if there is none. -/
def offset (indices shape : List Expr) : Expr :=
  match terms indices shape with
  | [] => .int 0
  | t :: ts => (ts.foldl (· + ·) t).fold

/-- The product of the dimensions from left to right, folded; one if there is none. -/
def count : List Expr → Expr
  | [] => .int 1
  | d :: ds => (ds.foldl (· * ·) d).fold

@[simp] theorem length_strides : ∀ shape : List Expr, (strides shape).length = shape.length
  | [] => rfl
  | [_] => rfl
  | _ :: d :: ds => by
    have ih := length_strides (d :: ds)
    rw [strides]
    cases h : strides (d :: ds) with
    | nil => rw [h] at ih; simp at ih
    | cons s ss => rw [h] at ih; simp only [List.length_cons] at ih ⊢; rw [ih]

end LoopNest.Layout
