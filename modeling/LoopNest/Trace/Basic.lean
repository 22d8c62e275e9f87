import LoopNest.Scope.Lower
import LoopNest.View.Select

/-!
# Recording a kernel

A trace is a kernel in the making: its scope tree, the root views of its buffers, and the next
unused variable number. Every operation takes a trace and gives the next one; an operation that
fails gives none, so nothing has happened.

* `LoopDecl`, `LoopDecl.check`: the description of a loop scope;
* `Trace`, `OpenScope`;
* `Trace.allocate`, `Trace.letVar`: implicit scopes;
* `Trace.enterAlloc`, `Trace.enterLoop`, `Trace.leave`: explicit scopes;
* `Trace.store`, `Trace.call`, `Trace.evaluate`: statements;
* `Trace.toBlock`: the finished trace, lowered.
-/

namespace LoopNest

/-! ## Loop scopes -/

/-- Names, ranges and tags of the indices of a loop scope, the outermost first. A part may be
missing; without tags every index has the empty one. -/
structure LoopDecl where
  names : Option (List String)
  ranges : Option (List Range)
  tags : Option (List String)
deriving DecidableEq

namespace LoopDecl

/-- One index without a tag. -/
def one (name : String) (range : Range) : LoopDecl := ⟨some [name], some [range], none⟩

/-- The indices, each with its name, range and tag. There must be as many of each, and one at
least. -/
def check (s : LoopDecl) : Except Error (List (String × Range × String)) :=
  match s.names with
  | none => .error (.configuration .noNames)
  | some names =>
    match s.ranges with
    | none => .error (.configuration .noRanges)
    | some ranges =>
      if names.length ≠ ranges.length then
        .error (.configuration (.rangeCount names.length ranges.length))
      else if names.isEmpty then .error (.configuration .noIndices)
      else
        match s.tags with
        | none => .ok (names.zip (ranges.map fun r => (r, "")))
        | some tags =>
          if tags.length = names.length then .ok (names.zip (ranges.zip tags))
          else .error (.configuration (.tagCount names.length tags.length))

end LoopDecl

/-! ## Traces -/

/-- A scope that was opened explicitly, by its number. -/
structure OpenScope where
  id : Nat
deriving DecidableEq

/-- A kernel in the making. -/
structure Trace where
  /-- The number of the next variable. -/
  fresh : Nat
  tree : ScopeTree
  /-- The root views of buffers, the latest first. -/
  bound : List View
deriving DecidableEq

namespace Trace

/-- Nothing recorded; variables are numbered from `fresh` on. -/
def start (fresh : Nat) : Trace := ⟨fresh, .empty, []⟩

/-- A variable that was not there before. -/
def newVar (t : Trace) (type : ElemType) (name : String) : Var × Trace :=
  (⟨t.fresh, name, type⟩, { t with fresh := t.fresh + 1 })

/-- A variable for each name. -/
def newVars (t : Trace) (type : ElemType) : List String → List Var × Trace
  | [] => ([], t)
  | name :: names =>
    let (v, t) := t.newVar type name
    let (vs, t) := t.newVars type names
    (v :: vs, t)

/-- Make a view the root view of its buffer. -/
def bindView (t : Trace) (v : View) : Trace := { t with bound := v :: t.bound }

/-- The root view of a buffer. -/
def viewOf? (t : Trace) (buffer : Var) : Option View := t.bound.find? fun v => v.buffer = buffer

/-! ## Scopes -/

/-- Open an allocation. Its number is of use only if the scope is explicit. -/
def addAlloc (t : Trace) (shape : List Expr) (storage : String) (type : ElemType) (name : String)
    (implicit : Bool) : (View × OpenScope) × Trace :=
  let (v, t) := t.newVar type name
  let view := View.root v shape storage
  let t := t.bindView view
  ((view, ⟨t.tree.size⟩), { t with tree := t.tree.enter (.alloc v shape storage) implicit })

/-- Allocate a buffer for the rest of the enclosing scope. -/
def allocate (t : Trace) (shape : List Expr) (storage : String) (type : ElemType) (name : String) :
    View × Trace :=
  let (r, t) := t.addAlloc shape storage type name true
  (r.1, t)

/-- Allocate a buffer until its scope is ended. -/
def enterAlloc (t : Trace) (shape : List Expr) (storage : String) (type : ElemType)
    (name : String) : (View × OpenScope) × Trace :=
  t.addAlloc shape storage type name false

/-- Open a loop scope. There is one new integer variable for each index. -/
def enterLoop (t : Trace) (kind : LoopKind) (decl : LoopDecl) :
    Except Error ((OpenScope × List Var) × Trace) := do
  let parts ← decl.check
  let (vars, t) := t.newVars .int32 (parts.map Prod.fst)
  let indices := List.zipWith (fun v p => ⟨v, p.2.1, p.2.2⟩) vars parts
  return ((⟨t.tree.size⟩, vars), { t with tree := t.tree.enter (.loop kind indices) false })

/-- End an explicit scope, which must be the innermost of them. -/
def leave (t : Trace) (h : OpenScope) : Except Error Trace := do
  return { t with tree := ← t.tree.close h.id }

/-- Let a new variable stand for a value for the rest of the enclosing scope. -/
def letVar (t : Trace) (name : String) (value : Expr) : Var × Trace :=
  let (v, t) := t.newVar value.type name
  (v, { t with tree := t.tree.enter (.bind [⟨v, value⟩]) true })

/-! ## Statements -/

/-- Add a statement to the innermost open scope. -/
def add (t : Trace) (b : Block) : Trace := { t with tree := t.tree.addStatement b }

/-- Write one element. -/
def store (t : Trace) (target : View) (selectors : List Selector) (value : Expr) :
    Except Error Trace := do
  match ← target.select selectors with
  | .element buffer indices => return t.add (.store buffer indices value)
  | .view _ => throw (.unsupportedOperation .partialStore)

/-- Call a function for its effects. -/
def call (t : Trace) (type : ElemType) (name : String) (args : List Expr) : Trace :=
  t.add (.eval (.call type name args))

/-- Evaluate an expression for its effects. -/
def evaluate (t : Trace) (value : Expr) : Trace := t.add (.eval value)

/-- Filling a whole buffer is refused. -/
def fill (_ : Trace) (target : View) (_ : Expr) : Except Error Trace :=
  .error (.unsupportedOperation (.fill target.buffer))

/-- Loading a whole view is refused. -/
def load (_ : Trace) (source : View) : Except Error Expr :=
  .error (.unsupportedOperation (.wholeLoad source.buffer source.rank))

/-! ## The end -/

/-- Finish a trace and lower it. -/
def toBlock (t : Trace) : Except Error Block := do
  t.tree.checkClosed
  t.tree.lower

end Trace

end LoopNest
