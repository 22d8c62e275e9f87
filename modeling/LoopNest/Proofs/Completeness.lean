import LoopNest.Kernel.Build
import LoopNest.Proofs.Arrays

/-!
# Completeness of flattening

The arrays of a kernel are its parameters and what its script allocates. Flattening takes the shapes
of the arrays with several dimensions as they are. If all loads and stores go through arrays, it
leaves several indices in these shapes only, and in accesses to an array that is no longer allocated
or to a variable that is two parameters.

* `Definition.MayLeave`: the accesses that may be left;
* **`Definition.only_flatten_reading`**: flattening the block of a script;
* **`lower_flat`**: what is left in the body of a kernel;
* **`not_lower_flat`**: a kernel where something is.
-/

namespace LoopNest

/-! ## What may be left -/

namespace Block

theorem allocated_flatten (T : Shapes) (b : Block) : (b.flatten T).allocated = b.allocated := by
  induction b generalizing T with
  | seq a b iha ihb =>
    have hseq : ∀ a b : Block, (seq a b).allocated = a.allocated ++ b.allocated :=
      fun _ _ => List.map_append
    rw [flatten, hseq, iha, ihb, hseq]
  | loop _ _ body ih | bind _ body ih => exact ih T
  | alloc v shape storage body ih => exact congrArg (List.cons v) (ih _)
  | eval _ | store _ _ _ => rfl

end Block

/-- An access occurs in a shape of a table. -/
def Shapes.Mention (T : Shapes) (p : Var × Nat) : Prop := ∃ q ∈ T, ∃ e ∈ q.2, p ∈ e.accesses

/-- A variable is that of two parameters with different numbers of dimensions. -/
def Signature.Clashes (s : Signature) (v : Var) : Prop :=
  ∃ p ∈ s.buffers, ∃ q ∈ s.buffers, p.var = v ∧ q.var = v ∧ p.shape.length ≠ q.shape.length

/-- An array of the script whose allocation is not in the block any more, as buffer and number of
dimensions. -/
def Script.Loses (s : Script) (n : Nat) (b : Block) (p : Var × Nat) : Prop :=
  ∃ a ∈ s.arrays n, (a.buffer, a.rank) = p ∧ a.buffer ∉ b.allocated

namespace Definition

/-- The parameters as arrays. -/
def views (d : Definition Id) : List View := d.signature.buffers.map Buffer.view

/-- The accesses that may be left: few indices, an access in a registered shape, one to an array
that is not there, and one to a buffer with two numbers of dimensions. -/
def MayLeave (d : Definition Id) (s : Script) (b : Block) (p : Var × Nat) : Prop :=
  p.2 < 2 ∨ (View.shapes d.views ++ b.registrations).Mention p ∨ s.Loses d.fresh b p ∨
    d.signature.Clashes p.1

/-- An access with as many indices as an array of the kernel has dimensions. -/
def Knows (d : Definition Id) (s : Script) (p : Var × Nat) : Prop :=
  (∃ q ∈ d.signature.buffers, (q.var, q.shape.length) = p) ∨
    ∃ a ∈ s.arrays d.fresh, (a.buffer, a.rank) = p

variable {d : Definition Id} {s : Script} {b : Block}

theorem mem_shapes_iff {p : Var × List Expr} :
    p ∈ View.shapes d.views ↔ ∃ q ∈ d.signature.buffers, (q.var, q.shape) = p := by
  rw [View.shapes, List.mem_reverse, views, List.map_map, List.mem_map]
  rfl

theorem tree_start (d : Definition Id) : d.start.tree = .empty ∧ d.start.fresh = d.fresh := by
  have hfold : ∀ (vs : List View) (t : Trace),
      (vs.foldl Trace.bindView t).tree = t.tree ∧ (vs.foldl Trace.bindView t).fresh = t.fresh := by
    intro vs
    induction vs with
    | nil => exact fun t => ⟨rfl, rfl⟩
    | cons v vs ih => exact fun t => ih (t.bindView v)
  exact hfold _ _

section

variable (hfresh : ∀ q ∈ d.signature.buffers, q.var.id < d.fresh) (hb : s.reading d.fresh = .ok [b])
include hfresh hb

/-- An allocation is that of one array of the script. -/
theorem rank_eq_of_mem_allocs {p : Var × List Expr} (hp : p ∈ b.allocs) {n : Nat}
    (h : d.Knows s (p.1, n)) : p.2.length = n := by
  have hranked : (p.1, p.2.length) ∈ [b].flatMap Block.ranked := by
    rw [List.flatMap_singleton]
    exact List.mem_map.2 ⟨p, hp, rfl⟩
  obtain ⟨a, ha, hap⟩ := Script.exists_array hb hranked
  obtain ⟨hbuffer, hrank⟩ := Prod.mk.inj hap
  have hlower : d.fresh ≤ a.buffer.id := (Script.id_arrays ha).1
  rcases h with ⟨q, hq, hqp⟩ | ⟨c, hc, hcp⟩
  · have hlt := hfresh q hq
    rw [(Prod.mk.inj hqp).1, ← hbuffer] at hlt
    omega
  · obtain ⟨hbuffer', hrank'⟩ := Prod.mk.inj hcp
    obtain rfl := Script.eq_of_buffer_eq ha hc (hbuffer.trans hbuffer'.symm)
    rw [← hrank, hrank']

theorem settles_registrations : b.registrations.Settles (d.MayLeave s b) (d.Knows s) := by
  intro p hp
  refine ⟨fun e he q hq => ?_, fun n hn => ?_⟩
  · exact .inr (.inl ⟨p, List.mem_append_right _ hp, e, he, hq⟩)
  · exact .inl (rank_eq_of_mem_allocs hfresh hb (List.mem_filter.1 hp).1 hn)

omit hb in
theorem settles_shapes : (View.shapes d.views).Settles (d.MayLeave s b) (d.Knows s) := by
  intro p hp
  refine ⟨fun e he q hq => ?_, fun n hn => ?_⟩
  · exact .inr (.inl ⟨p, List.mem_append_left _ hp, e, he, hq⟩)
  · obtain ⟨q, hq, rfl⟩ := mem_shapes_iff.1 hp
    rcases hn with ⟨r, hr, hrn⟩ | ⟨a, ha, han⟩
    · obtain ⟨hvar, hrank⟩ := Prod.mk.inj hrn
      by_cases hlen : q.shape.length = n
      · exact .inl hlen
      · refine .inr (.inr (.inr (.inr ⟨q, hq, r, hr, rfl, hvar, ?_⟩)))
        rwa [hrank]
    · have hlower := (Script.id_arrays ha).1
      have hlt := hfresh q hq
      rw [(Prod.mk.inj han).1] at hlower
      exact absurd hlower (Nat.not_le.2 hlt)

theorem allowed_arrays {a : View} (ha : a ∈ s.arrays d.fresh) :
    Allowed (d.MayLeave s b) (d.Knows s) ([b].flatMap Block.registered) (a.buffer, a.rank) := by
  have hknown : d.Knows s (a.buffer, a.rank) := .inr ⟨a, ha, rfl⟩
  by_cases hlen : 1 < a.rank
  · by_cases hmem : a.buffer ∈ b.allocated
    · obtain ⟨p, hp, hpa⟩ := List.mem_map.1 hmem
      have hrank := rank_eq_of_mem_allocs hfresh hb hp (hpa ▸ hknown)
      refine .inr ⟨hknown, ?_⟩
      rw [List.flatMap_singleton, Block.mem_registered_iff]
      exact ⟨a.rank, List.mem_map.2 ⟨p, hp, Prod.ext hpa hrank⟩, hlen⟩
    · exact .inl (.inr (.inr (.inl ⟨a, ha, rfl, hmem⟩)))
  · exact .inl (.inl (by show a.rank < 2; omega))

/-- **Flattening the block of a script through arrays leaves what may be left.** -/
theorem only_flatten_reading (hs : s.Through d.views d.fresh) :
    (b.flattenViews d.views).Only (d.MayLeave s b) := by
  have hlow : ∀ v n, n < 2 → d.MayLeave s b (v, n) := fun _ _ hn => .inl hn
  have hclosed : Closed (d.MayLeave s b) d.views := by
    intro a ha
    obtain ⟨q, hq, rfl⟩ := List.mem_map.1 ha
    have hmem : (q.var, q.shape) ∈ View.shapes d.views := mem_shapes_iff.2 ⟨q, hq, rfl⟩
    exact ⟨rfl, fun e he p hp => .inl (.inr (.inl ⟨_, List.mem_append_left _ hmem, e, he, hp⟩))⟩
  have hviews : ∀ a ∈ d.views, Allowed (d.MayLeave s b) (d.Knows s)
      ((View.shapes d.views).map Prod.fst) (a.buffer, a.rank) := by
    intro a ha
    obtain ⟨q, hq, rfl⟩ := List.mem_map.1 ha
    exact .inr ⟨.inl ⟨q, hq, rfl⟩, List.mem_map.2 ⟨_, mem_shapes_iff.2 ⟨q, hq, rfl⟩, rfl⟩⟩
  have hcovered := Script.coveredAll_reading hlow hb hs hclosed hviews fun a ha =>
    allowed_arrays hfresh hb ha
  exact hcovered.1.flatten hlow (fun v hv => hv) (settles_shapes hfresh)
    (settles_registrations hfresh hb)

end

/-! ## The body of a kernel -/

/-- How the program of a kernel ends, and the trace that it leaves. -/
def recorded (d : Definition Id) : Except Error Unit × Trace :=
  (d.body d.views d.signature.scalars).run d.start

/-- A kernel that is lowered is what its trace is finished to, after the passes. -/
theorem toBlock_of_lower {k : Kernel} (h : d.lower = .ok k) : ∃ b,
    d.recorded.2.toBlock = .ok b ∧ k = ⟨d.signature, d.options.apply d.views b, none⟩ := by
  have hlower : d.lower = d.recorded.1 >>= fun _ => d.recorded.2.toBlock >>= fun b =>
    .ok ⟨d.signature, d.options.apply d.views b, none⟩ := rfl
  rw [hlower] at h
  obtain ⟨-, -, h⟩ := bind_eq_ok_iff.1 h
  obtain ⟨b, hb, h⟩ := bind_eq_ok_iff.1 h
  exact ⟨b, hb, (Except.ok.inj h).symm⟩

/-- The end of a program that succeeded is lowered to the block of its trace, after the passes. -/
theorem lower_of_recorded {t : Trace} (ht : d.recorded = (.ok (), t)) (hb : t.toBlock = .ok b) :
    d.lower = .ok ⟨d.signature, d.options.apply d.views b, none⟩ := by
  have hlower : d.lower = d.recorded.1 >>= fun _ => d.recorded.2.toBlock >>= fun b =>
    .ok ⟨d.signature, d.options.apply d.views b, none⟩ := rfl
  rw [hlower, ht, hb]
  rfl

/-- What a played script is finished to is its reading. -/
theorem toBlock_of_play {t : Trace} (hplay : s.play d.start = .ok t) :
    t.toBlock = s.reading d.fresh >>= ScopeForm.root.wrap := by
  obtain ⟨htree, hnumber⟩ := d.tree_start
  have hready : d.start.tree.Ready := htree ▸ ScopeTree.ready_empty
  obtain ⟨bound, hplay'⟩ := s.play_eq d.start hready
  obtain rfl := Except.ok.inj (hplay'.symm.trans hplay)
  rw [htree, hnumber, Trace.toBlock, ScopeTree.checkClosed_after_empty, ← s.reading_plan]
  exact ScopeTree.lower_after_empty (s.plan d.fresh)

theorem reading_of_play {t : Trace} (hplay : s.play d.start = .ok t) (hb : t.toBlock = .ok b) :
    s.reading d.fresh = .ok [b] := by
  rw [toBlock_of_play hplay] at hb
  obtain ⟨bs, hbs, hwrap⟩ := bind_eq_ok_iff.1 hb
  rw [hbs, wrap_root_eq_ok_iff.1 hwrap]

end Definition

/-- The passes keep the allocated buffers. -/
theorem Options.allocated_apply (o : Options) (views : List View) (b : Block) :
    (o.apply views b).allocated = b.allocated := by
  have hflat : (if o.flatten then b.flattenViews views else b).allocated = b.allocated := by
    split
    · exact Block.allocated_flatten _ b
    · rfl
  rw [Options.apply]
  by_cases hfold : o.simplify = true
  · rw [if_pos hfold, Block.fold, Block.allocated_mapExprs, hflat]
  · rw [if_neg hfold, hflat]

/-- Folding after flattening leaves what flattening leaves. -/
theorem Options.only_apply {o : Options} (ho : o.flatten = true) {views : List View} {b : Block}
    {Q : Var × Nat → Prop} (h : (b.flattenViews views).Only Q) : (o.apply views b).Only Q := by
  rw [Options.apply, if_pos ho]
  by_cases hfold : o.simplify = true
  · rw [if_pos hfold]
    exact h.fold
  · rwa [if_neg hfold]

/-- **Where flattening is complete.** Take a kernel whose program records what a script through its
arrays records. Lowered with flattening, its body has no load and no store with several indices but
those that a registered shape holds, those to an array that was allocated in a loop that is written
out to nothing, and those to a variable that is two parameters of different numbers of dimensions.
So where registered shapes have no such load, no loop is written out to nothing, and every parameter
has a variable of its own, there is none anywhere. -/
theorem lower_flat {d : Definition Id} {s : Script} {t : Trace} {k : Kernel}
    (hflat : d.options.flatten = true) (hfresh : ∀ q ∈ d.signature.buffers, q.var.id < d.fresh)
    (hplay : s.play d.start = .ok t) (hs : s.Through d.views d.fresh)
    (htree : d.recorded.2.tree = t.tree) (hk : d.lower = .ok k) :
    ∃ b, t.toBlock = .ok b ∧
      (∀ p ∈ k.body.accesses, p.2 < 2 ∨ (View.shapes d.views ++ b.registrations).Mention p ∨
        s.Loses d.fresh k.body p ∨ d.signature.Clashes p.1) ∧
      ((∀ p, (View.shapes d.views ++ b.registrations).Mention p → p.2 < 2) →
        s.Keeps → (∀ v, ¬d.signature.Clashes v) → ∀ p ∈ k.body.accesses, p.2 < 2) := by
  obtain ⟨b, hb, rfl⟩ := Definition.toBlock_of_lower hk
  have hsame : t.toBlock = d.recorded.2.toBlock := by
    rw [Trace.toBlock, ← htree]
    rfl
  have hb : t.toBlock = .ok b := hsame.trans hb
  have hreading := Definition.reading_of_play hplay hb
  have hleft := Options.only_apply hflat (Definition.only_flatten_reading hfresh hreading hs)
  have hlost : ∀ p, s.Loses d.fresh (d.options.apply d.views b) p ↔ s.Loses d.fresh b p := by
    intro p
    unfold Script.Loses
    rw [Options.allocated_apply]
  refine ⟨b, hb, fun p hp => ?_, fun hshapes hkeeps hclash p hp => ?_⟩
  · rw [hlost]
    exact hleft p hp
  · rcases hleft p hp with hfew | hmention | ⟨a, ha, -, hmissing⟩ | hp
    · exact hfew
    · exact hshapes p hmention
    · have hmem := Script.allocated_reading hkeeps hreading ha
      rw [List.flatMap_singleton] at hmem
      exact absurd hmem hmissing
    · exact absurd hp (hclash p.1)

/-! ## Kernels of scripts -/

/-- A kernel whose program plays a script. -/
def Script.kernel (s : Script) (fresh : Nat) (signature : Signature) (options : Options) :
    Definition Id := ⟨fresh, signature, options, fun _ _ => Tracing.act s.play⟩

/-- Its trace is that of the script. -/
theorem recorded_kernel {s : Script} {fresh : Nat} {g : Signature} {o : Options} {t : Trace}
    (h : s.play (s.kernel fresh g o).start = .ok t) :
    (s.kernel fresh g o).recorded = (.ok (), t) := by
  have hplay : (s.play (s.kernel fresh g o).start).map (fun u => ((), u)) = .ok ((), t) := by
    rw [h]
    rfl
  unfold Definition.recorded Script.kernel Tracing.run Tracing.act Tracing.tryOp
  simp only [ExceptT.run, ExceptT.mk, StateT.run]
  split
  · next a u hu =>
    obtain ⟨rfl, rfl⟩ := Prod.mk.inj (Except.ok.inj (hu.symm.trans hplay))
    rfl
  · next e hu => exact nomatch hu.symm.trans hplay

theorem Expr.Through.literals {arrays : List View} (ns : List Word) :
    ∀ s ∈ ns.map fun n => Selector.at (.int n), ∀ e ∈ s.exprs, e.Through arrays := by
  intro s hs e he
  obtain ⟨n, -, rfl⟩ := List.mem_map.1 hs
  obtain rfl := List.mem_singleton.1 he
  exact .int n

/-- An element of an array is a load through it. -/
theorem Expr.Through.load {arrays : List View} {a : View} {e : Expr} (ns : List Word)
    (ha : a ∈ arrays) (h : a.element (ns.map fun n => .at (.int n)) = .ok e) :
    e.Through arrays := by
  have hself : a.slices [] = .ok a := rfl
  refine .view ha (List.forall_mem_nil _) hself (fun x hx => ?_) (.element h)
  obtain ⟨s, hs, hx⟩ := List.mem_flatMap.1 hx
  exact Expr.Through.literals ns s hs x hx

/-- A store to an element of an array is one through it. -/
theorem Statement.Through.store {arrays : List View} {a : View} {v : Var} {is : List Expr}
    {e : Expr} (ns : List Word) (ha : a ∈ arrays) (he : e.Through arrays)
    (h : a.select (ns.map fun n => .at (.int n)) = .ok (.element v is)) :
    (Statement.store a (ns.map fun n => .at (.int n)) e v is h).Through arrays :=
  ⟨⟨a, ha, [], rfl, List.forall_mem_nil _⟩, Expr.Through.literals ns, he⟩

/-- A table of two rows and two columns, and a buffer of four elements. -/
def tableSignature : Signature where
  name := "k"
  buffers := [⟨⟨0, "A", .int32⟩, [.int 2, .int 2]⟩, ⟨⟨1, "B", .int32⟩, [.int 4]⟩]
  scalars := []

/-- An element of the table. -/
def cell (i j : Word) : Expr := .load ⟨0, "A", .int32⟩ [.int i, .int j]

/-- Elements of the table in two ranges, in a value and in the extent of a single dimension. The
inner loop is written out, and stores its variable at two indices. -/
def cellScript : Script :=
  .loop .spatial (.one "i" ⟨cell 0 0, cell 0 1, .int 1⟩)
    [("i", ⟨cell 0 0, cell 0 1, .int 1⟩, "")] rfl
    (.letVar "x" (cell 1 0)
      (.allocate [cell 1 1] "local" .int32 "r"
        (.loop .unroll (.one "j" ⟨cell 0 0, .int 2, .int 1⟩)
          [("j", ⟨cell 0 0, .int 2, .int 1⟩, "")] rfl
          (.allocate [.int 3, .int 5] "local" .int32 "t"
            (.statement (.store (.root ⟨6, "t", .int32⟩ [.int 3, .int 5] "local")
              [.at (.int 0), .at (.int 4)] (.var ⟨5, "j", .int32⟩) ⟨6, "t", .int32⟩
              [.int 0, .int 4] rfl)
              .done))
          .done)))
    .done

theorem lower_flat_cellScript : ∃ k, (cellScript.kernel 2 tableSignature .standard).lower = .ok k ∧
    ∀ p ∈ k.body.accesses, p.2 < 2 := by
  obtain ⟨t, ht⟩ : ∃ t,
      cellScript.play (cellScript.kernel 2 tableSignature .standard).start = .ok t := ⟨_, rfl⟩
  obtain ⟨k, hk⟩ : ∃ k, (cellScript.kernel 2 tableSignature .standard).lower = .ok k := ⟨_, rfl⟩
  have hfresh : ∀ q ∈ tableSignature.buffers, q.var.id < 2 := by decide
  have hthrough : cellScript.Through (tableSignature.buffers.map Buffer.view) 2 := by
    refine ⟨?_, ⟨?_, ?_, ?_, ⟨?_, ?_, trivial⟩, trivial⟩, trivial⟩
    · refine List.forall_mem_singleton.2 (List.forall_mem_cons.2 ⟨?_, List.forall_mem_cons.2
        ⟨?_, List.forall_mem_singleton.2 (.int 1)⟩⟩)
      · exact Expr.Through.load [0, 0] List.mem_cons_self rfl
      · exact Expr.Through.load [0, 1] List.mem_cons_self rfl
    · exact Expr.Through.load [1, 0] List.mem_cons_self rfl
    · exact List.forall_mem_singleton.2 (Expr.Through.load [1, 1] List.mem_cons_self rfl)
    · refine List.forall_mem_singleton.2 (List.forall_mem_cons.2 ⟨?_, List.forall_mem_cons.2
        ⟨.int 2, List.forall_mem_singleton.2 (.int 1)⟩⟩)
      exact Expr.Through.load [0, 0] (List.mem_cons_of_mem _ List.mem_cons_self) rfl
    · exact List.forall_mem_cons.2 ⟨.int 3, List.forall_mem_singleton.2 (.int 5)⟩
    · exact Statement.Through.store [0, 4] List.mem_cons_self (.var _) rfl
  have hkeeps : cellScript.Keeps :=
    ⟨fun h => (nomatch h), ⟨fun _ => by decide, trivial, trivial⟩, trivial⟩
  have htree : (cellScript.kernel 2 tableSignature .standard).recorded.2.tree = t.tree := by
    rw [recorded_kernel ht]
  obtain ⟨b, hb, -, hall⟩ := lower_flat rfl hfresh ht hthrough htree hk
  have hshapes : ∀ q ∈ View.shapes (tableSignature.buffers.map Buffer.view) ++ b.registrations,
      ∀ e ∈ q.2, e.accesses = [] := by
    obtain rfl := Except.ok.inj ht
    obtain rfl := Except.ok.inj hb
    decide
  have hparameters : ∀ p ∈ tableSignature.buffers, ∀ q ∈ tableSignature.buffers,
      p.var = q.var → p.shape.length = q.shape.length := by decide
  refine ⟨k, hk, hall ?_ hkeeps ?_⟩
  · rintro p ⟨q, hq, e, he, hp⟩
    rw [hshapes q hq e he] at hp
    exact nomatch hp
  · rintro v ⟨p, hp, q, hq, hpv, hqv, hne⟩
    exact hne (hparameters p hp q hq (hpv.trans hqv.symm))

/-- An array of two dimensions, one of them an element of the table. -/
def spillScript : Script :=
  .allocate [cell 0 1, .int 2] "local" .int32 "t"
    (.statement (.store (.root ⟨2, "t", .int32⟩ [cell 0 1, .int 2] "local")
      [.at (.int 0), .at (.int 1)] (.int 5) ⟨2, "t", .int32⟩ [.int 0, .int 1] rfl)
      (.statement (.store (.root ⟨1, "B", .int32⟩ [.int 4] "global") [.at (.int 0)]
        (.load ⟨2, "t", .int32⟩ [.int 0, .int 1]) ⟨1, "B", .int32⟩ [.int 0] rfl) .done))

/-- **Flattening is not complete**: it takes the extents of this array as they are. -/
theorem not_lower_flat : ¬∀ (d : Definition Id) (s : Script) (t : Trace) (k : Kernel),
    d.options.flatten = true → (∀ q ∈ d.signature.buffers, q.var.id < d.fresh) →
    s.play d.start = .ok t → s.Through d.views d.fresh → d.recorded.2.tree = t.tree →
    d.lower = .ok k → ∀ p ∈ k.body.accesses, p.2 < 2 := by
  intro hall
  obtain ⟨t, ht⟩ : ∃ t,
      spillScript.play (spillScript.kernel 2 tableSignature .standard).start = .ok t := ⟨_, rfl⟩
  obtain ⟨k, hk⟩ : ∃ k, (spillScript.kernel 2 tableSignature .standard).lower = .ok k := ⟨_, rfl⟩
  have htree : (spillScript.kernel 2 tableSignature .standard).recorded.2.tree = t.tree := by
    rw [recorded_kernel ht]
  have hthrough : spillScript.Through (tableSignature.buffers.map Buffer.view) 2 := by
    refine ⟨List.forall_mem_cons.2 ⟨?_, List.forall_mem_singleton.2 (.int 2)⟩, ?_, ?_, trivial⟩
    · exact Expr.Through.load [0, 1] List.mem_cons_self rfl
    · exact Statement.Through.store [0, 1] List.mem_cons_self (.int 5) rfl
    · exact Statement.Through.store [0] (by decide)
        (Expr.Through.load [0, 1] List.mem_cons_self rfl) rfl
  have hleft : ((⟨0, "A", .int32⟩ : Var), 2) ∈ k.body.accesses := by
    obtain rfl := Except.ok.inj hk
    decide
  have hfew := hall _ _ t k rfl (by decide) ht hthrough htree hk _ hleft
  exact absurd hfew (by decide)

end LoopNest
