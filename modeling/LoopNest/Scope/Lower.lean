import LoopNest.Scope.Tree
import LoopNest.Scope.Unroll

/-!
# From scopes to statements

A scope is lowered after the scopes inside it, whose blocks follow one another in the body.
Allocations and bindings wrap the body. A loop wraps it once for each index, the first declared
outermost, or is written out. The root must hold exactly one scope, which it becomes.

* `Block.nest`: loops around a body;
* `ScopeForm.wrap`: what a scope makes of the blocks inside it;
* `Scope.lower`: a scope as a block.
-/

namespace LoopNest

/-- One loop for each index around a body, the first index outermost. -/
def Block.nest (kind : LoopKind) (indices : List LoopIndex) (body : Block) : Block :=
  indices.foldr (fun i b => .loop kind i b) body

/-- What a scope makes of the blocks inside it. -/
def ScopeForm.wrap : ScopeForm → List Block → Except Error Block
  | root, [b] => .ok b
  | root, bs => .error (.configuration (.topLevelCount bs.length))
  | alloc v shape storage, bs => .ok (.alloc v shape storage (Block.ofList bs))
  | bind ms, bs => .ok (.bind ms (Block.ofList bs))
  | loop .unroll is, bs => Block.unroll is (Block.ofList bs)
  | loop k is, bs => .ok (Block.nest k is (Block.ofList bs))
  | statement b, _ => .ok b

namespace Scope

mutual

/-- A scope as a block. The first failure counts, scopes inside coming first. -/
def lower : Scope → Except Error Block
  | .node form children => do form.wrap (← lowerAll children)

/-- Scopes as blocks, in order. -/
def lowerAll : List Scope → Except Error (List Block)
  | [] => return []
  | s :: ss => do
    let b ← s.lower
    let bs ← lowerAll ss
    return b :: bs

end

theorem lowerAll_eq_mapM (ss : List Scope) : lowerAll ss = ss.mapM lower := by
  induction ss with
  | nil => rfl
  | cons s ss ih => rw [lowerAll, ih, List.mapM_cons]

end Scope

/-- Lower a finished tree. -/
def ScopeTree.lower (t : ScopeTree) : Except Error Block := t.scope.lower

end LoopNest
