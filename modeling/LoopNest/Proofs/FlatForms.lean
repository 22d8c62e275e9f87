import LoopNest.Proofs.Coverage

/-!
# Flat forms

A table of shapes leaves an access alone if there are few indices, or if it has no shape of that
many dimensions for the buffer. Flattening leaves a block alone that has such accesses only and
allocates no buffer of several dimensions. Flattened blocks are like that: what an allocation has
registered on the way is no longer there when the block is flattened again, but neither is the
access that it was registered for.

* `Shapes.Leaves`: accesses that a table leaves alone;
* `Block.IsFlat`: nothing in the block is left for a table;
* **`Expr.flatten_eq_self_iff`**, **`Block.flatten_eq_self_iff`**: what flattening leaves alone is
  flat, and nothing else is;
* **`Block.isFlat_flatten`**: flattened blocks are flat;
* **`flatten_idempotent`**: flattening twice.
-/

namespace LoopNest

/-- A list is mapped to itself if each item is. -/
theorem map_eq_self_iff {α : Type} {f : α → α} {xs : List α} :
    xs.map f = xs ↔ ∀ x ∈ xs, f x = x := by
  conv_lhs => rhs; rw [← List.map_id xs]
  exact List.map_inj_left

namespace Shapes

/-- The table leaves alone an access to a buffer with some number of indices. -/
def Leaves (T : Shapes) (p : Var × Nat) : Prop :=
  p.2 < 2 ∨ ∀ shape, T.find? p.1 = some shape → shape.length ≠ p.2

variable {T U : Shapes} {v : Var} {is : List Expr}

theorem leaves_of_lt {n : Nat} (h : n < 2) : T.Leaves (v, n) := .inl h

theorem leaves_of_find?_eq_none {p : Var × Nat} (h : T.find? p.1 = none) : T.Leaves p :=
  .inr fun _ hfind => nomatch h.symm.trans hfind

/-- Indices stay exactly if their access is left alone: an offset is one index for several. -/
theorem length_flatIndices_eq_iff : (T.flatIndices v is).length = is.length ↔
    T.Leaves (v, is.length) := by
  unfold flatIndices Leaves
  by_cases hfew : is.length < 2
  · simp [hfew]
  · rw [if_neg hfew]
    cases hfind : T.find? v with
    | none => simp
    | some shape =>
      by_cases hlen : shape.length = is.length
      · simp only [hlen, if_true, List.length_singleton, Option.some.injEq, forall_eq', ne_eq,
          not_true_eq_false, or_false]
        omega
      · simp [hlen]

theorem flatIndices_of_leaves (h : T.Leaves (v, is.length)) : T.flatIndices v is = is := by
  unfold flatIndices
  split
  · rfl
  · next hmany =>
    have hne := h.resolve_left hmany
    split
    · next shape hfind => exact if_neg (hne shape hfind)
    · rfl

/-- Indices that are passed over stay exactly if each does and their access is left alone. -/
theorem flatIndices_map_eq_self_iff {f : Expr → Expr} :
    T.flatIndices v (is.map f) = is ↔ T.Leaves (v, is.length) ∧ ∀ i ∈ is, f i = i := by
  rw [← map_eq_self_iff]
  constructor
  · intro his
    have hleft : T.Leaves (v, (is.map f).length) := by
      rw [← length_flatIndices_eq_iff, his, List.length_map]
    exact ⟨by rwa [List.length_map] at hleft, (flatIndices_of_leaves hleft).symm.trans his⟩
  · rintro ⟨hleft, his⟩
    rw [his]
    exact flatIndices_of_leaves hleft

theorem find?_append : (U ++ T).find? v = (U.find? v).or (T.find? v) := by
  rw [find?, List.find?_append, find?, find?]
  cases List.find? (fun p : Var × List Expr => p.1 = v) U <;> rfl

theorem find?_of_notMem (h : v ∉ T.map Prod.fst) : T.find? v = none := by
  cases hfind : T.find? v with
  | none => rfl
  | some shape => exact absurd (List.mem_map_of_mem (mem_of_find? hfind)) h

/-- What may be registered besides a table: a shape of which the table leaves all loads alone, of a
buffer that the table has no shape for. -/
def Admits (T : Shapes) (p : Var × List Expr) : Prop :=
  T.find? p.1 = none ∧ ∀ d ∈ p.2, d.Only T.Leaves

theorem find?_append_of_admits (hU : ∀ p ∈ U, T.Admits p) {shape : List Expr}
    (h : T.find? v = some shape) : (U ++ T).find? v = some shape := by
  have hnew : v ∉ U.map Prod.fst := fun hv => by
    obtain ⟨p, hp, rfl⟩ := List.mem_map.1 hv
    exact nomatch (hU p hp).1.symm.trans h
  rw [find?_append, find?_of_notMem hnew, h, Option.none_or]

end Shapes

/-! ## Expressions -/

namespace Expr

variable {T : Shapes}

/-- **Flattening leaves an expression alone** exactly if the table leaves all its loads alone. -/
theorem flatten_eq_self_iff {e : Expr} : e.flatten T = e ↔ e.Only T.Leaves := by
  induction e using inductionOn with
  | int _ | float _ | str _ | var _ => exact ⟨fun _ => only_of_accesses_eq_nil rfl, fun _ => rfl⟩
  | binary op a b iha ihb =>
    rw [flatten_binary, only_binary_iff, ← iha, ← ihb, binary.injEq]
    exact and_iff_right rfl
  | cast t a iha =>
    rw [flatten_cast, cast.injEq]
    exact (and_iff_right rfl).trans iha
  | load v is ih =>
    rw [flatten_load, load.injEq, Shapes.flatIndices_map_eq_self_iff, only_load_iff,
      ← forall₂_congr ih]
    exact and_iff_right rfl
  | call t f as ih =>
    rw [flatten_call, call.injEq, map_eq_self_iff, only_call_iff, ← forall₂_congr ih]
    exact ⟨fun h => h.2.2, fun h => ⟨rfl, rfl, h⟩⟩

theorem map_flatten_eq_self_iff {es : List Expr} :
    es.map (flatten T) = es ↔ ∀ e ∈ es, e.Only T.Leaves :=
  map_eq_self_iff.trans (forall₂_congr fun _ _ => flatten_eq_self_iff)

end Expr

theorem Range.flatten_eq_self_iff {T : Shapes} {r : Range} :
    r.mapExprs (Expr.flatten T) = r ↔ ∀ e ∈ r.exprs, e.Only T.Leaves := by
  rw [← Expr.map_flatten_eq_self_iff]
  cases r
  simp [mapExprs, exprs]

/-! ## Blocks -/

namespace Block

section

variable (a b body : Block) (v : Var) (shape : List Expr) (storage : String)

theorem registrations_seq : (seq a b).registrations = a.registrations ++ b.registrations := by
  rw [registrations, allocs, List.filter_append, registrations, registrations]

theorem registrations_alloc : (alloc v shape storage body).registrations =
    if 1 < shape.length then (v, shape) :: body.registrations else body.registrations := by
  rw [registrations, allocs, List.filter_cons, registrations]
  simp only [decide_eq_true_eq]

end

/-- Nothing in the block is left for a table: no access, and no allocation of several
dimensions. -/
def IsFlat (T : Shapes) (b : Block) : Prop := b.Only T.Leaves ∧ b.registrations = []

section

variable {T : Shapes} {a b body : Block} {v : Var} {shape is : List Expr} {e : Expr}

theorem IsFlat.declare_eq (h : b.IsFlat T) (U : Shapes) : b.declare U = U := by
  rw [Block.declare_eq, h.2]
  rfl

theorem isFlat_seq_iff : (seq a b).IsFlat T ↔ a.IsFlat T ∧ b.IsFlat T := by
  rw [IsFlat, only_seq_iff, registrations_seq, List.append_eq_nil_iff]
  exact and_and_and_comm

theorem isFlat_loop_iff {k : LoopKind} {i : LoopIndex} : (loop k i body).IsFlat T ↔
    (∀ e ∈ i.range.exprs, e.Only T.Leaves) ∧ body.IsFlat T := by
  rw [IsFlat, only_loop_iff, and_assoc]
  exact Iff.rfl

theorem isFlat_alloc_iff {storage : String} : (alloc v shape storage body).IsFlat T ↔
    shape.length < 2 ∧ (∀ d ∈ shape, d.Only T.Leaves) ∧ body.IsFlat T := by
  rw [IsFlat, only_alloc_iff, registrations_alloc, IsFlat]
  split
  · next hlen => simp [Nat.not_lt.2 hlen]
  · next hlen => simp [Nat.lt_succ_iff.2 (Nat.not_lt.1 hlen), and_assoc]

theorem isFlat_bind_iff {bs : List Binding} : (bind bs body).IsFlat T ↔
    (∀ x ∈ bs, x.value.Only T.Leaves) ∧ body.IsFlat T := by
  rw [IsFlat, only_bind_iff, and_assoc]
  exact Iff.rfl

theorem isFlat_eval_iff : (eval e).IsFlat T ↔ e.Only T.Leaves := and_iff_left rfl

theorem isFlat_store_iff : (store v is e).IsFlat T ↔
    T.Leaves (v, is.length) ∧ (∀ i ∈ is, i.Only T.Leaves) ∧ e.Only T.Leaves :=
  (and_iff_left rfl).trans only_store_iff

/-- **Flattening leaves a block alone** exactly if it is flat. -/
theorem flatten_eq_self_iff : b.flatten T = b ↔ b.IsFlat T := by
  induction b with
  | seq a b iha ihb =>
    rw [flatten, seq.injEq, isFlat_seq_iff, iha]
    refine and_congr_right fun ha => ?_
    rw [ha.declare_eq, ihb]
  | loop k i body ih =>
    rw [flatten, loop.injEq, isFlat_loop_iff, ih, ← Range.flatten_eq_self_iff]
    cases i
    simp
  | alloc v shape storage body ih =>
    rw [flatten, alloc.injEq, isFlat_alloc_iff, ← Expr.map_flatten_eq_self_iff]
    by_cases hlen : 1 < shape.length
    · have hne : [Layout.count shape] ≠ shape := fun h => by
        rw [← h] at hlen
        exact absurd hlen (by simp)
      simp [hlen, hne, Nat.not_lt.2 hlen]
    · have haddShape : addShape v shape T = T := if_neg hlen
      simp [hlen, haddShape, ih, Nat.lt_succ_iff.2 (Nat.not_lt.1 hlen)]
  | bind bs body ih =>
    have hvalue : ∀ x : Binding, { x with value := x.value.flatten T } = x ↔
        x.value.Only T.Leaves := fun x => by
      rw [← Expr.flatten_eq_self_iff, Binding.mk.injEq]
      exact and_iff_right rfl
    rw [flatten, bind.injEq, isFlat_bind_iff, ih, map_eq_self_iff]
    exact and_congr_left' (forall₂_congr fun x _ => hvalue x)
  | eval e => rw [flatten, eval.injEq, isFlat_eval_iff, Expr.flatten_eq_self_iff]
  | store v is e =>
    rw [flatten, store.injEq, isFlat_store_iff, Expr.flatten_eq_self_iff,
      Shapes.flatIndices_map_eq_self_iff, and_assoc]
    refine (and_iff_right rfl).trans (and_congr_right' (and_congr_left' ?_))
    exact forall₂_congr fun _ _ => Expr.flatten_eq_self_iff

end

/-! ## Flattened blocks -/

section

variable {T U : Shapes} {b : Block}

/-- No allocation of several dimensions is left. -/
theorem registrations_flatten (T : Shapes) (b : Block) : (b.flatten T).registrations = [] := by
  induction b generalizing T with
  | seq a b iha ihb => rw [flatten, registrations_seq, iha, ihb, List.append_nil]
  | loop _ _ body ih | bind _ body ih => exact ih T
  | alloc v shape storage body ih =>
    rw [flatten, registrations_alloc, ih, if_neg]
    split
    · simp
    · next hlen => rwa [List.length_map]
  | eval _ | store _ _ _ => rfl

variable (hT : ∀ p ∈ T, ∀ d ∈ p.2, d.Only T.Leaves)

include hT

/-- The table that a block is flattened under has more and more shapes in front, but those of the
table that it began with are found as before. -/
theorem only_flatten (hU : ∀ p ∈ U, T.Admits p) (hb : ∀ p ∈ b.registrations, T.Admits p) :
    (b.flatten (U ++ T)).Only T.Leaves := by
  have hshapes : ∀ {U : Shapes}, (∀ p ∈ U, T.Admits p) →
      ∀ p ∈ U ++ T, ∀ d ∈ p.2, d.Only T.Leaves := fun hU =>
    List.forall_mem_append.2 ⟨fun p hp => (hU p hp).2, hT⟩
  have hleft : ∀ {U : Shapes}, (∀ p ∈ U, T.Admits p) → ∀ v n,
      (∀ shape, (U ++ T).find? v = some shape → shape.length ≠ n) → T.Leaves (v, n) :=
    fun hU v n h => .inr fun shape hfind => h shape (Shapes.find?_append_of_admits hU hfind)
  have hexpr : ∀ {U : Shapes}, (∀ p ∈ U, T.Admits p) → ∀ e : Expr,
      (e.flatten (U ++ T)).Only T.Leaves := fun hU e =>
    Expr.Only.flatten (Q := fun _ => True) (fun _ _ => Shapes.leaves_of_lt) (hshapes hU)
      (fun v n _ => hleft hU v n) fun _ _ => trivial
  induction b generalizing U with
  | seq a b iha ihb =>
    rw [registrations_seq, List.forall_mem_append] at hb
    have hUb : ∀ p ∈ a.registrations.reverse ++ U, T.Admits p :=
      List.forall_mem_append.2 ⟨fun p hp => hb.1 p (List.mem_reverse.1 hp), hU⟩
    rw [flatten, declare_eq, ← List.append_assoc]
    exact only_seq_iff.2 ⟨iha hU hb.1, ihb hUb hb.2⟩
  | loop k i body ih =>
    refine only_loop_iff.2 ⟨?_, ih hU hb⟩
    exact List.forall_mem_map (l := i.range.exprs).2 fun e _ => hexpr hU e
  | alloc v shape storage body ih =>
    rw [registrations_alloc] at hb
    rw [flatten, addShape]
    by_cases hlen : 1 < shape.length
    · rw [if_pos hlen, List.forall_mem_cons] at hb
      rw [if_pos hlen, if_pos hlen, ← List.cons_append]
      refine only_alloc_iff.2 ⟨?_, ih (List.forall_mem_cons.2 ⟨hb.1, hU⟩) hb.2⟩
      exact List.forall_mem_singleton.2 (Layout.only_count hb.1.2)
    · rw [if_neg hlen] at hb
      rw [if_neg hlen, if_neg hlen]
      exact only_alloc_iff.2 ⟨List.forall_mem_map.2 fun d _ => hexpr hU d, ih hU hb⟩
  | bind bs body ih =>
    exact only_bind_iff.2 ⟨List.forall_mem_map.2 fun x _ => hexpr hU x.value, ih hU hb⟩
  | eval e => exact hexpr hU e
  | store v is e =>
    obtain ⟨hv, his⟩ := Shapes.only_flatIndices (fun _ _ => Shapes.leaves_of_lt) (hshapes hU)
      (hleft hU v _) (List.forall_mem_map.2 fun i _ => hexpr hU i)
    exact only_store_iff.2 ⟨hv, his, hexpr hU e⟩

/-- **A flattened block is flat.** -/
theorem isFlat_flatten (hb : ∀ p ∈ b.registrations, T.Admits p) : (b.flatten T).IsFlat T :=
  ⟨only_flatten (U := []) hT (List.forall_mem_nil _) hb, registrations_flatten T b⟩

end

end Block

/-! ## Flattening twice -/

/-- **Flattening a flattened block changes nothing**, and nothing in it is left to do. No registered
shape, whether of the table or of an allocation, holds a load, and no buffer of the table is
allocated in the block; its accesses may be whatever they are. -/
theorem flatten_idempotent {T : Shapes} {b : Block}
    (hshapes : ∀ p ∈ T ++ b.registrations, ∀ d ∈ p.2, d.accesses = [])
    (hT : ∀ p ∈ T, p.1 ∉ b.allocated) :
    (b.flatten T).flatten T = b.flatten T ∧ (b.flatten T).IsFlat T := by
  have hleft : ∀ p ∈ T ++ b.registrations, ∀ d ∈ p.2, d.Only T.Leaves := fun p hp d hd =>
    Expr.only_of_accesses_eq_nil (hshapes p hp d hd)
  rw [List.forall_mem_append] at hleft
  have hadmits : ∀ p ∈ b.registrations, T.Admits p := by
    refine fun p hp => ⟨Shapes.find?_of_notMem fun hmem => ?_, hleft.2 p hp⟩
    obtain ⟨q, hq, hqp⟩ := List.mem_map.1 hmem
    exact hT q hq (hqp ▸ List.mem_map_of_mem (List.mem_filter.1 hp).1)
  have hflat := Block.isFlat_flatten hleft.1 hadmits
  exact ⟨Block.flatten_eq_self_iff.2 hflat, hflat⟩

/-- A table of two rows. -/
def rowShapes : Shapes := [(⟨0, "a", .int32⟩, [.int 2, .int 3])]

/-- Accesses of all kinds: an allocated buffer, inside of its allocation with loaded indices and
outside of it; a buffer that is not known; and the table with too many indices. -/
def scatteredAccesses : Block :=
  let a : Var := ⟨0, "a", .int32⟩
  let n : Var := ⟨1, "n", .int32⟩
  let v : Var := ⟨2, "v", .int32⟩
  let w : Var := ⟨3, "w", .int32⟩
  .seq
    (.alloc v [.int 2, n] "local"
      (.store v [.load a [.int 1, .load w [.int 0, .int 1]], .int 1] (.load v [.int 0])))
    (.seq (.store v [.int 1, .int 0] (.load a [.int 1, .int 1, .load a [.int 0, .int 2]]))
      (.store w [.int 0, .int 0] (.load v [.load v [.int 0, .int 1], .int 1])))

theorem flatten_idempotent_scattered :
    scatteredAccesses.flatten rowShapes ≠ scatteredAccesses ∧
    (scatteredAccesses.flatten rowShapes).flatten rowShapes =
      scatteredAccesses.flatten rowShapes :=
  ⟨by decide, (flatten_idempotent (by decide) (by decide)).1⟩

/-- **Neither condition can be dropped.** An extent that is loaded is flattened the second time
only, and so is an access to a buffer of the table inside an allocation of it that has more
dimensions. -/
theorem flatten_flatten_ne :
    let a : Var := ⟨0, "a", .int32⟩
    let loaded : Block := .alloc ⟨1, "v", .int32⟩ [.load a [.int 0, .int 1], .int 2] "local" .nop
    let hidden : Block :=
      .alloc a [.int 2, .int 2, .int 2] "local" (.store a [.int 1, .int 1] (.int 5))
    (loaded.flatten rowShapes).flatten rowShapes ≠ loaded.flatten rowShapes ∧
    (hidden.flatten rowShapes).flatten rowShapes ≠ hidden.flatten rowShapes := by
  decide

end LoopNest
