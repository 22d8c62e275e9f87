import LoopNest.Block.Basic
import LoopNest.Error

/-!
# The tree of scopes

A kernel is recorded as a tree of scopes. Scopes are numbered in the order in which they come, and
each lists its children in that order. The scopes that are still open form a stack: a new scope
becomes the last child of the innermost open one. A scope opened explicitly must be closed,
innermost first; one opened implicitly closes together with the scope around it. A statement is a
scope that is never open.

* `ScopeForm`, `ScopeEntry`, `ScopeTree`;
* `ScopeTree.addStatement`, `ScopeTree.enter`: a statement, and an open scope;
* `ScopeTree.close`: the end of a scope, with the implicit scopes inside it;
* `ScopeTree.checkClosed`: nothing but implicit scopes may be left open;
* `Scope`, `ScopeTree.scope`: the record read as a tree.
-/

namespace LoopNest

/-- What a scope is. -/
inductive ScopeForm where
  | root
  | alloc (buffer : Var) (shape : List Expr) (storage : String)
  | loop (kind : LoopKind) (indices : List LoopIndex)
  | bind (bindings : List Binding)
  | statement (block : Block)
deriving DecidableEq

/-- What messages say of a scope. -/
def ScopeForm.name : ScopeForm → ScopeName
  | root => .root
  | alloc v _ _ => .alloc v
  | loop k is => .loop k (is.map LoopIndex.var)
  | bind bs => .bind (bs.map Binding.var)
  | statement _ => .statement

/-- A scope and the numbers of its children, in order. -/
structure ScopeEntry where
  form : ScopeForm
  /-- It closes together with the scope around it. -/
  implicit : Bool
  children : List Nat
deriving DecidableEq

/-- The scopes by number, and the numbers of those that are open, innermost first. The root, number
`0`, is the last of them and stays open. -/
structure ScopeTree where
  entries : Array ScopeEntry
  opened : List Nat
deriving DecidableEq

namespace ScopeTree

/-- The tree with an open root and nothing else. -/
def empty : ScopeTree := ⟨#[⟨.root, false, []⟩], [0]⟩

/-- The number of scopes. -/
def size (t : ScopeTree) : Nat := t.entries.size

/-- The number of open scopes. -/
def depth (t : ScopeTree) : Nat := t.opened.length

/-- The innermost open scope. -/
def innermost (t : ScopeTree) : Nat := t.opened.headD 0

/-- A scope was opened implicitly. -/
def isImplicit (t : ScopeTree) (id : Nat) : Bool :=
  (t.entries[id]?.map ScopeEntry.implicit).getD false

/-- What messages say of a scope. -/
def describe (t : ScopeTree) (id : Nat) : ScopeName :=
  (t.entries[id]?.map fun n => n.form.name).getD .root

/-- Add a scope as the last child of the innermost open one. -/
def addChild (t : ScopeTree) (form : ScopeForm) (implicit : Bool) : ScopeTree :=
  let entries := t.entries.modify t.innermost fun n => { n with children := n.children ++ [t.size] }
  { t with entries := entries.push ⟨form, implicit, []⟩ }

/-- Add a statement. -/
def addStatement (t : ScopeTree) (b : Block) : ScopeTree := t.addChild (.statement b) false

/-- Add a scope and open it. Its number is the size of the tree before. -/
def enter (t : ScopeTree) (form : ScopeForm) (implicit : Bool) : ScopeTree :=
  { t.addChild form implicit with opened := t.size :: t.opened }

/-- Close a scope and the implicit scopes opened inside it. Fails if the scope is not open, is the
root, or holds an explicit scope that is still open; of several the outermost is named. -/
def close (t : ScopeTree) (id : Nat) : Except Error ScopeTree :=
  if id ∉ t.opened then
    if id < t.size then .error (.stackDiscipline (.notOpen id (t.describe id)))
    else .error (.stackDiscipline (.unknown id))
  else
    let inside := t.opened.takeWhile (· ≠ id)
    let around := (t.opened.dropWhile (· ≠ id)).drop 1
    if around.isEmpty then .error (.stackDiscipline .root)
    else
      match inside.reverse.find? fun s => !t.isImplicit s with
      | some s => .error (.stackDiscipline (.innerOpen (t.describe id) (t.describe s)))
      | none => .ok { t with opened := around }

/-- The outermost explicit scope above the root that is still open. -/
def leftOpen? (t : ScopeTree) : Option Nat :=
  (t.opened.reverse.drop 1).find? fun s => !t.isImplicit s

/-- No explicit scope may be left open. -/
def checkClosed (t : ScopeTree) : Except Error Unit :=
  match t.leftOpen? with
  | some s => .error (.stackDiscipline (.leftOpen (t.describe s)))
  | none => .ok ()

end ScopeTree

/-! ## The record as a tree -/

/-- A scope with the scopes inside it. -/
inductive Scope where
  | node (form : ScopeForm) (children : List Scope)

namespace ScopeTree

/-- A scope with what is inside it, to a depth. -/
def scopeTo (t : ScopeTree) : Nat → Nat → Scope
  | 0, id => .node ((t.entries[id]?.map ScopeEntry.form).getD .root) []
  | n + 1, id =>
    match t.entries[id]? with
    | none => .node .root []
    | some entry => .node entry.form (entry.children.map (t.scopeTo n))

/-- The whole tree. A child has a larger number than its parent, so no branch is longer than the
tree has scopes. -/
def scope (t : ScopeTree) : Scope := t.scopeTo t.size 0

end ScopeTree

end LoopNest
