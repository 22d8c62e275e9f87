import LoopNest.Block.Basic
import LoopNest.Error

/-!
# Statements that C can express

A block is brought into a form in which nothing is left to refuse. Loops have a literal step that is
not zero and run to a bound; every access has one index, or as many as the local array it goes to
has dimensions. What a target accepts depends on nothing but whether it knows zigzag loops.

* `C.Loop`, `C.Stmt`;
* `C.Ranks`: the ranks of the local arrays met so far;
* `Expr.checkC`: the constructs of an expression;
* `Block.toC`: a block as a C statement.
-/

namespace LoopNest

namespace C

/-- A counted loop: from `first` in steps of `step` as long as `bound` is not reached. -/
structure Loop where
  var : Var
  first : Expr
  bound : Expr
  step : Word
  kind : LoopKind
  tag : String
deriving DecidableEq

/-- A C statement over the expressions of a block. -/
inductive Stmt where
  | skip
  | seq (first second : Stmt)
  | loop (head : Loop) (body : Stmt)
  | array (buffer : Var) (shape : List Expr) (storage : String) (body : Stmt)
  | consts (bindings : List Binding) (body : Stmt)
  | eval (value : Expr)
  | assign (buffer : Var) (indices : List Expr) (value : Expr)
deriving DecidableEq

/-- Ranks of local arrays, the latest first. -/
abbrev Ranks := List (Var × Nat)

/-- The rank of a local array by its latest declaration. -/
def Ranks.find? (ranks : Ranks) (v : Var) : Option Nat :=
  (List.find? (fun p => p.1 = v) ranks).map Prod.snd

/-- An access needs an index; only a local array may have several, one for each dimension. -/
def Ranks.check (ranks : Ranks) (v : Var) (count : Nat) : Except Construct Unit :=
  if count = 0 ∨ (1 < count ∧ ranks.find? v ≠ some count) then .error (.manyIndices count v)
  else .ok ()

end C

namespace Expr

mutual

/-- Nothing in the expression is beyond C: the accesses have fitting indices, and there is no floor
division of floating-point operands, by the types of the operands. -/
def checkC (ranks : C.Ranks) : Expr → Except Construct Unit
  | int _ | float _ | str _ | var _ => .ok ()
  | binary op a b => do
    a.checkC ranks
    b.checkC ranks
    if (op = .floorDiv ∨ op = .floorMod) ∧ (a.type.isFloat ∨ b.type.isFloat) then
      throw (.floatDivision op)
  | cast _ a => a.checkC ranks
  | load v is => do
    ranks.check v is.length
    checkAllC ranks is
  | call _ _ as => checkAllC ranks as

/-- Nothing in the expressions is beyond C. -/
def checkAllC (ranks : C.Ranks) : List Expr → Except Construct Unit
  | [] => .ok ()
  | e :: es => do
    e.checkC ranks
    checkAllC ranks es

end

end Expr

/-- Where a loop ends: `first + extent * step`, folded. -/
def Range.bound (r : Range) (step : Word) : Expr := (r.first + r.extent * .int step).fold

/-- The step of a loop, which must be a literal other than zero. -/
def LoopIndex.stepC (i : LoopIndex) : Except Construct Word :=
  match i.range.step.literal? with
  | none => .error (.symbolicStep i.var i.range.step)
  | some s => if s = 0 then .error (.zeroStep i.var) else .ok s

/-- An index as the head of a C loop. -/
def LoopIndex.toC (zigzag : Bool) (kind : LoopKind) (i : LoopIndex) : Except Construct C.Loop := do
  if kind = .zigzag ∧ zigzag = false then throw (.zigzag i.var)
  let step ← i.stepC
  return ⟨i.var, i.range.first, i.range.bound step, step, kind, i.tag⟩

namespace Block

/-- The ranks of local arrays after a block. A rank stays known past the end of the array. -/
def ranks (before : C.Ranks) : Block → C.Ranks
  | seq a b => b.ranks (a.ranks before)
  | loop _ _ body => body.ranks before
  | alloc v shape _ body => body.ranks ((v, shape.length) :: before)
  | bind _ body => body.ranks before
  | eval _ => before
  | store _ _ _ => before

/-- A block as a C statement; the first construct beyond C is reported. -/
def toC (zigzag : Bool) (known : C.Ranks) : Block → Except Construct C.Stmt
  | seq a b => do
    let s ← a.toC zigzag known
    let t ← b.toC zigzag (a.ranks known)
    return .seq s t
  | loop k i body => do
    let head ← i.toC zigzag k
    head.first.checkC known
    head.bound.checkC known
    return .loop head (← body.toC zigzag known)
  | alloc v shape storage body => do
    Expr.checkAllC known shape
    return .array v shape storage (← body.toC zigzag ((v, shape.length) :: known))
  | bind bs body => do
    Expr.checkAllC known (bs.map Binding.value)
    return .consts bs (← body.toC zigzag known)
  | eval e => do
    if isNop (eval e) then return .skip
    e.checkC known
    return .eval e
  | store v is e => do
    known.check v is.length
    Expr.checkAllC known is
    e.checkC known
    return .assign v is e

end Block

end LoopNest
