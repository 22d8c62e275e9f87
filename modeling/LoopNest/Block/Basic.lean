import LoopNest.Expr.Fold
import LoopNest.Expr.Substitution
import LoopNest.Range

/-!
# Statement trees

A lowered kernel is an immutable tree of statements. A chain `a; b; c` is nested to the right, and a
zigzag loop keeps its direction tag for the target: nothing here reverses an iteration.

* `Block`, `Block.nop`, `Block.ofList`;
* `Block.statements`, `Block.stores`: program order;
* `Block.mapExprs`: a pass that changes expressions only, with `Block.subst` and `Block.fold`;
* **`Block.statements_ofList`**: a sequence has the statements of its parts, in order.
-/

namespace LoopNest

/-- A variable that stands for a value. -/
structure Binding where
  var : Var
  value : Expr
deriving DecidableEq

/-- A statement. -/
inductive Block where
  | seq (first second : Block)
  | loop (kind : LoopKind) (index : LoopIndex) (body : Block)
  | alloc (buffer : Var) (shape : List Expr) (storage : String) (body : Block)
  | bind (bindings : List Binding) (body : Block)
  | eval (value : Expr)
  | store (buffer : Var) (indices : List Expr) (value : Expr)
deriving DecidableEq

/-- Apply `f` to the three parts of a range. -/
def Range.mapExprs (f : Expr → Expr) (r : Range) : Range := ⟨f r.first, f r.extent, f r.step⟩

namespace Block

/-- The statement without effect: it evaluates the literal zero. -/
def nop : Block := eval (.int 0)

instance : Inhabited Block := ⟨nop⟩

/-- The block evaluates the literal zero and does nothing else. -/
def isNop : Block → Bool
  | eval (.int n) => n == 0
  | _ => false

/-- Run blocks in order. No block at all is `nop`. -/
def ofList : List Block → Block
  | [] => nop
  | [b] => b
  | b :: bs => seq b (ofList bs)

@[simp] theorem ofList_cons_cons (b c : Block) (bs : List Block) :
    ofList (b :: c :: bs) = seq b (ofList (c :: bs)) := rfl

/-- What is collected along a chain is collected from a sequence part by part. -/
theorem collect_ofList {α : Type} {f : Block → List α} (hnop : f nop = [])
    (hseq : ∀ a b, f (seq a b) = f a ++ f b) (bs : List Block) :
    f (ofList bs) = bs.flatMap f := by
  induction bs with
  | nil => exact hnop
  | cons b bs ih =>
    cases bs with
    | nil => simp [ofList]
    | cons c cs => rw [List.flatMap_cons, ofList_cons_cons, hseq, ih]

/-- The statements in program order, chains taken apart. -/
def statements : Block → List Block
  | seq a b => a.statements ++ b.statements
  | b => [b]

/-- The stores anywhere in a block, in program order. -/
def stores : Block → List Block
  | seq a b => a.stores ++ b.stores
  | loop _ _ body => body.stores
  | alloc _ _ _ body => body.stores
  | bind _ body => body.stores
  | eval _ => []
  | store v is e => [store v is e]

/-- **A sequence has the statements of its parts, in order.** -/
theorem statements_ofList {bs : List Block} (h : bs ≠ []) :
    (ofList bs).statements = bs.flatMap statements := by
  induction bs with
  | nil => exact absurd rfl h
  | cons b bs ih =>
    cases bs with
    | nil => simp [ofList]
    | cons c cs =>
      simp only [ofList, statements, List.flatMap_cons] at ih ⊢
      rw [ih (by simp)]

/-! ## Passes over expressions -/

/-- Apply `f` to every expression of a block. -/
def mapExprs (f : Expr → Expr) : Block → Block
  | seq a b => seq (a.mapExprs f) (b.mapExprs f)
  | loop k i body => loop k { i with range := i.range.mapExprs f } (body.mapExprs f)
  | alloc v shape storage body => alloc v (shape.map f) storage (body.mapExprs f)
  | bind bs body => bind (bs.map fun b => { b with value := f b.value }) (body.mapExprs f)
  | eval e => eval (f e)
  | store v is e => store v (is.map f) (f e)

/-- Replace variables in expression position. Variables that a loop, an allocation or a binding
introduces stay. -/
def subst (σ : Substitution) : Block → Block := mapExprs (Expr.subst σ)

/-- Fold the integer arithmetic of every expression. -/
def fold : Block → Block := mapExprs Expr.fold

end Block

end LoopNest
