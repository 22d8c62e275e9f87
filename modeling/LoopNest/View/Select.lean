import LoopNest.View.Basic

/-!
# Selecting through a view

One selector for each dimension gives a smaller view or, if every one is a position, one element.
They are checked in order, as far as literals allow: positions and slices of literals must lie
within a dimension of literal extent, and a literal step must climb. What is symbolic is not
checked.

* `Selector.cut`: one selector on one dimension;
* `Selection`, `View.select`: all selectors;
* `View.slice`, `View.element`: a selection that must be a view, or an element.
-/

namespace LoopNest

namespace Selector

/-- A literal position must lie within a literal extent. -/
def checkPosition (dim : Nat) (position extent : Expr) : Except Error Unit :=
  match position.literal?, extent.literal? with
  | some i, some n =>
    if i < 0 ∨ n ≤ i then .error (.outOfBounds dim (.index i n)) else .ok ()
  | _, _ => .ok ()

/-- A literal step must be positive. -/
def checkStep (dim : Nat) (step : Expr) : Except Error Unit :=
  match step.literal? with
  | some s => if s ≤ 0 then .error (.configuration (.sliceStep s dim)) else .ok ()
  | none => .ok ()

/-- A slice of literals must hold a position and lie within a literal extent. -/
def checkSpan (dim : Nat) (start stop extent : Expr) : Except Error Unit :=
  match start.literal?, stop.literal?, extent.literal? with
  | some b, some e, some n =>
    if 0 ≤ b ∧ b < e ∧ e ≤ n then .ok () else .error (.outOfBounds dim (.slice b e n))
  | _, _, _ => .ok ()

/-- The number of positions from `start` below `stop`, every `step`-th: the distance divided by the
step and rounded up. -/
def spanExtent (dim : Nat) (start stop step : Expr) : Except Error Expr :=
  match start.literal?, stop.literal?, step.literal? with
  | some b, some e, some s =>
    match Word.sub? e b with
    | none => .error (.configuration (.sliceOverflow b e dim))
    | some width =>
      if width ≤ 0 then .error (.outOfBounds dim (.emptySlice b e))
      else .ok (.int ((width - 1) / s + 1))
  | _, _, some 1 => .ok (stop - start).fold
  | _, _, _ => .ok (Expr.binary .floorDiv (stop - start + (step - .int 1)) step).fold

/-- One selector on a dimension of the given extent. -/
def cut (dim : Nat) (extent : Expr) : Selector → Except Error Cut
  | .at e => do
    checkPosition dim e extent
    return .fixed e
  | span start? stop? step? => do
    let start := start?.getD (.int 0)
    let stop := stop?.getD extent
    let step := step?.getD (.int 1)
    checkStep dim step
    checkSpan dim start stop extent
    return .strided start step (← spanExtent dim start stop step)

/-- Selectors on dimensions, the first of which has the given number. -/
def cutAll (dim : Nat) : List Selector → List Expr → Except Error (List Cut)
  | s :: ss, e :: es => do
    let c ← s.cut dim e
    let cs ← cutAll (dim + 1) ss es
    return c :: cs
  | _, _ => return []

end Selector

/-- What is selected: a view, or one element of the storage. -/
inductive Selection where
  | view (v : View)
  | element (buffer : Var) (indices : List Expr)
deriving DecidableEq

namespace View

/-- Select by one selector for each dimension. -/
def select (v : View) (selectors : List Selector) : Except Error Selection :=
  if selectors.length ≠ v.rank then .error (.shapeMismatch v.rank selectors.length)
  else do
    let cuts ← Selector.cutAll 0 selectors v.shape
    if cuts.any Cut.isStrided then return .view (.sliced v cuts)
    else return .element v.buffer (← v.locate (cuts.filterMap Cut.offset?))

/-- Select a view. -/
def slice (v : View) (selectors : List Selector) : Except Error View := do
  match ← v.select selectors with
  | .view w => return w
  | .element _ _ => throw (.unsupportedOperation .allPositions)

/-- Read one element. -/
def element (v : View) (selectors : List Selector) : Except Error Expr := do
  match ← v.select selectors with
  | .element b is => return .load b is
  | .view _ => throw (.unsupportedOperation .partialLoad)

end View

end LoopNest
