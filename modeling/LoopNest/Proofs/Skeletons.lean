import LoopNest.Proofs.FlatForms

/-!
# Skeletons of statement trees

The skeleton of a block is what is left of it without its expressions: how its statements are
nested, the loops with their variables, kinds and tags, the buffers and storage classes of
allocations, the names that are bound, and the buffers that are stored to. A pass may rewrite,
drop or join the expressions of a block, but not one of these.

* `Skeleton`, `Block.skeleton`;
* **`Block.skeleton_mapExprs`**, **`Block.skeleton_flatten`**: the passes;
* **`Block.flatten_of_few`**: blocks that flattening does not touch;
* **`passes_keep_skeleton`**: flattening and folding together.
-/

namespace LoopNest

/-- A statement without its expressions. -/
inductive Skeleton where
  | seq (first second : Skeleton)
  | loop (kind : LoopKind) (var : Var) (tag : String) (body : Skeleton)
  | alloc (buffer : Var) (storage : String) (body : Skeleton)
  | bind (vars : List Var) (body : Skeleton)
  | eval
  | store (buffer : Var)
deriving DecidableEq

/-- The stores anywhere in a skeleton, in program order. -/
def Skeleton.stores : Skeleton → List Skeleton
  | seq a b => a.stores ++ b.stores
  | loop _ _ _ body | alloc _ _ body | bind _ body => body.stores
  | eval => []
  | store v => [store v]

namespace Block

/-- A block without its expressions. -/
def skeleton : Block → Skeleton
  | seq a b => .seq a.skeleton b.skeleton
  | loop kind i body => .loop kind i.var i.tag body.skeleton
  | alloc v _ storage body => .alloc v storage body.skeleton
  | bind bs body => .bind (bs.map Binding.var) body.skeleton
  | eval _ => .eval
  | store v _ _ => .store v

/-- The stores of a block are those of its skeleton. -/
theorem map_skeleton_stores (b : Block) : b.stores.map skeleton = b.skeleton.stores := by
  induction b with
  | seq a b iha ihb => rw [stores, List.map_append, iha, ihb, skeleton, Skeleton.stores]
  | loop _ _ body ih | alloc _ _ _ body ih | bind _ body ih => exact ih
  | eval _ | store _ _ _ => rfl

/-! ## Passes -/

/-- **A pass over expressions keeps the skeleton.** -/
theorem skeleton_mapExprs (f : Expr → Expr) (b : Block) :
    (b.mapExprs f).skeleton = b.skeleton := by
  induction b with
  | seq a b iha ihb => rw [mapExprs, skeleton, iha, ihb, skeleton]
  | loop _ _ body ih | alloc _ _ _ body ih => rw [mapExprs, skeleton, ih, skeleton]
  | bind bs body ih =>
    rw [mapExprs, skeleton, ih, List.map_map, skeleton]
    rfl
  | eval _ | store _ _ _ => rfl

/-- **Flattening keeps the skeleton**, though it changes the table on the way. -/
theorem skeleton_flatten (T : Shapes) (b : Block) : (b.flatten T).skeleton = b.skeleton := by
  induction b generalizing T with
  | seq a b iha ihb => rw [flatten, skeleton, iha, ihb, skeleton]
  | loop _ _ body ih | alloc _ _ _ body ih => rw [flatten, skeleton, ih, skeleton]
  | bind bs body ih =>
    rw [flatten, skeleton, ih, List.map_map, skeleton]
    rfl
  | eval _ | store _ _ _ => rfl

/-- **Flattening changes nothing** where nothing has several dimensions: neither an allocation, nor
an access to a buffer of the table. -/
theorem flatten_of_few {T : Shapes} {b : Block} (hallocs : ∀ p ∈ b.allocs, p.2.length < 2)
    (haccesses : ∀ p ∈ b.accesses, 1 < p.2 → p.1 ∉ T.map Prod.fst) : b.flatten T = b := by
  refine flatten_eq_self_iff.2 ⟨fun p hp => ?_, ?_⟩
  · by_cases hmany : 1 < p.2
    · exact Shapes.leaves_of_find?_eq_none (Shapes.find?_of_notMem (haccesses p hp hmany))
    · exact Shapes.leaves_of_lt (Nat.lt_succ_iff.2 (Nat.not_lt.1 hmany))
  · refine List.filter_eq_nil_iff.2 fun p hp => ?_
    have hlen := hallocs p hp
    simpa using Nat.lt_succ_iff.1 hlen

end Block

/-! ## Main statement -/

/-- **Flattening and folding keep the skeleton of every block**, under every table, and with it the
buffers that are stored to, in their order. Flattening changes nothing at all in a block that has
neither an allocation of several dimensions nor an access with several indices to a buffer of the
table. -/
theorem passes_keep_skeleton (b : Block) :
    (∀ T : Shapes, (b.flatten T).skeleton = b.skeleton ∧
      (b.flatten T).stores.map Block.skeleton = b.stores.map Block.skeleton) ∧
    (b.fold.skeleton = b.skeleton ∧
      b.fold.stores.map Block.skeleton = b.stores.map Block.skeleton) ∧
    ∀ T : Shapes, (∀ p ∈ b.allocs, p.2.length < 2) →
      (∀ p ∈ b.accesses, 1 < p.2 → p.1 ∉ T.map Prod.fst) → b.flatten T = b := by
  have hstores : ∀ c : Block, c.skeleton = b.skeleton →
      c.stores.map Block.skeleton = b.stores.map Block.skeleton := by
    intro c hc
    rw [Block.map_skeleton_stores, Block.map_skeleton_stores, hc]
  have hflatten := fun T => b.skeleton_flatten T
  have hfold : b.fold.skeleton = b.skeleton := b.skeleton_mapExprs Expr.fold
  exact ⟨fun T => ⟨hflatten T, hstores _ (hflatten T)⟩, ⟨hfold, hstores _ hfold⟩,
    fun T => Block.flatten_of_few⟩

/-- Nothing here has several dimensions, apart from an access to a buffer that the table does not
know. -/
def sparseBlock : Block :=
  let a : Var := ⟨0, "a", .int32⟩
  let v : Var := ⟨1, "v", .float32⟩
  let w : Var := ⟨2, "w", .int32⟩
  let i : Var := ⟨3, "i", .int32⟩
  let t : Var := ⟨4, "t", .int32⟩
  .loop .zigzag ⟨i, .upTo 0 4, "rows"⟩
    (.alloc v [.binary .add (.int 2) (.int 2)] "shared"
      (.bind [⟨t, .binary .add (.load a [i]) (.int 0)⟩]
        (.seq (.store w [.int 0, t] (.load a [.binary .mul t (.int 1)])) (.store v [i] (.int 1)))))

theorem passes_keep_skeleton_sparse :
    sparseBlock.flatten rowShapes = sparseBlock ∧ sparseBlock.fold ≠ sparseBlock ∧
    sparseBlock.fold.skeleton = sparseBlock.skeleton ∧
    sparseBlock.stores.map Block.skeleton = [.store ⟨2, "w", .int32⟩, .store ⟨1, "v", .float32⟩] :=
  have hkeep := passes_keep_skeleton sparseBlock
  ⟨hkeep.2.2 rowShapes (by decide) (by decide), by decide, hkeep.2.1.1, by decide⟩

end LoopNest
