import LoopNest.Proofs.Accesses

/-!
# Accesses of blocks

Flattening meets an access at some place of a block, with the shapes that are registered there. What
may be left is said of the buffers that are registered at each place, without their shapes; this is
kept when loops are written out, and grows with the registered buffers.

* `Block.accesses`, `Block.Only`: the loads and stores of a block, and a property of all of them;
* `Block.allocs`, `Block.allocated`, `Block.ranked`, `Block.registrations`: what a block allocates;
* `Allowed`, `Block.Covered`, `Block.CoveredAll`: each access may be left, or its buffer is
  registered before;
* **`Block.covered_unroll`**: loops that are written out;
* **`Block.Covered.flatten`**: flattening leaves what may be left.
-/

namespace LoopNest

/-- The parts of a range. -/
def Range.exprs (r : Range) : List Expr := [r.first, r.extent, r.step]

namespace Block

/-! ## Accesses and allocations -/

/-- The loads and stores of a block, each as buffer and number of indices. -/
def accesses : Block → List (Var × Nat)
  | seq a b => a.accesses ++ b.accesses
  | loop _ i body => i.range.exprs.flatMap Expr.accesses ++ body.accesses
  | alloc _ shape _ body => shape.flatMap Expr.accesses ++ body.accesses
  | bind bs body => (bs.map Binding.value).flatMap Expr.accesses ++ body.accesses
  | eval e => e.accesses
  | store v is e => (v, is.length) :: (is.flatMap Expr.accesses ++ e.accesses)

/-- The buffers that a block allocates, with their shapes. -/
def allocs : Block → Shapes
  | seq a b => a.allocs ++ b.allocs
  | loop _ _ body => body.allocs
  | alloc v shape _ body => (v, shape) :: body.allocs
  | bind _ body => body.allocs
  | eval _ | store _ _ _ => []

/-- The buffers that a block allocates. -/
def allocated (b : Block) : List Var := b.allocs.map Prod.fst

/-- The buffers that a block allocates, with their numbers of dimensions. -/
def ranked (b : Block) : List (Var × Nat) := b.allocs.map fun p => (p.1, p.2.length)

/-- The allocations of several dimensions. -/
def registrations (b : Block) : Shapes := b.allocs.filter fun p => 1 < p.2.length

theorem mem_registered_iff {b : Block} {v : Var} :
    v ∈ b.registered ↔ ∃ n, (v, n) ∈ b.ranked ∧ 1 < n := by
  induction b with
  | seq a b iha ihb =>
    simp only [registered, ranked, allocs, List.map_append, List.mem_append, or_and_right,
      exists_or] at iha ihb ⊢
    rw [iha, ihb]
  | loop _ _ body ih | bind _ body ih => exact ih
  | alloc u shape storage body ih =>
    have hranked : (alloc u shape storage body).ranked = (u, shape.length) :: body.ranked := rfl
    rw [registered, hranked]
    by_cases hlen : 1 < shape.length
    · rw [if_pos hlen, List.mem_cons, ih]
      constructor
      · rintro (rfl | ⟨n, hn, h1⟩)
        · exact ⟨_, List.mem_cons_self, hlen⟩
        · exact ⟨n, List.mem_cons_of_mem _ hn, h1⟩
      · rintro ⟨n, hn, h1⟩
        rcases List.mem_cons.1 hn with hn | hn
        · exact .inl (Prod.mk.inj hn).1
        · exact .inr ⟨n, hn, h1⟩
    · rw [if_neg hlen, ih]
      constructor
      · rintro ⟨n, hn, h1⟩
        exact ⟨n, List.mem_cons_of_mem _ hn, h1⟩
      · rintro ⟨n, hn, h1⟩
        rcases List.mem_cons.1 hn with hn | hn
        · exact absurd ((Prod.mk.inj hn).2 ▸ h1) hlen
        · exact ⟨n, hn, h1⟩
  | eval _ | store _ _ _ => simp [registered, ranked, allocs]

theorem allocs_mapExprs (f : Expr → Expr) (b : Block) :
    (b.mapExprs f).allocs = b.allocs.map fun p => (p.1, p.2.map f) := by
  induction b with
  | seq a b iha ihb => rw [mapExprs, allocs, iha, ihb, allocs, List.map_append]
  | loop _ _ body ih | bind _ body ih => exact ih
  | alloc v shape storage body ih => rw [mapExprs, allocs, ih, allocs, List.map_cons]
  | eval _ | store _ _ _ => rfl

theorem ranked_mapExprs (f : Expr → Expr) (b : Block) : (b.mapExprs f).ranked = b.ranked := by
  rw [ranked, allocs_mapExprs, List.map_map, ranked]
  refine List.map_congr_left fun p _ => ?_
  rw [Function.comp_apply, List.length_map]

theorem allocated_mapExprs (f : Expr → Expr) (b : Block) :
    (b.mapExprs f).allocated = b.allocated := by
  rw [allocated, allocs_mapExprs, List.map_map]
  rfl

theorem registered_mapExprs (f : Expr → Expr) (b : Block) :
    (b.mapExprs f).registered = b.registered := by
  induction b with
  | seq a b iha ihb => rw [mapExprs, registered, iha, ihb, registered]
  | loop _ _ body ih | bind _ body ih => exact ih
  | alloc v shape storage body ih => rw [mapExprs, registered, ih, List.length_map, registered]
  | eval _ | store _ _ _ => rfl

theorem ranked_ofList (bs : List Block) : (ofList bs).ranked = bs.flatMap ranked :=
  collect_ofList rfl (fun _ _ => List.map_append) bs

theorem allocated_ofList (bs : List Block) : (ofList bs).allocated = bs.flatMap allocated :=
  collect_ofList rfl (fun _ _ => List.map_append) bs

theorem allocated_alloc_ofList (v : Var) (shape : List Expr) (storage : String) (bs : List Block) :
    (alloc v shape storage (ofList bs)).allocated = v :: bs.flatMap allocated := by
  rw [← allocated_ofList]
  rfl

theorem registered_ofList (bs : List Block) :
    (ofList bs).registered = bs.flatMap registered := collect_ofList rfl (fun _ _ => rfl) bs

/-- An allocation of several dimensions registers its buffer. -/
def addBuffer (v : Var) (shape : List Expr) (vs : List Var) : List Var :=
  if 1 < shape.length then v :: vs else vs

theorem registered_alloc_ofList (v : Var) (shape : List Expr) (storage : String) (bs : List Block) :
    (alloc v shape storage (ofList bs)).registered = addBuffer v shape (bs.flatMap registered) := by
  rw [← registered_ofList]
  rfl

theorem allocs_nest (kind : LoopKind) (is : List LoopIndex) (body : Block) :
    (nest kind is body).allocs = body.allocs := by
  induction is with
  | nil => rfl
  | cons i is ih => exact ih

/-- Copies allocate nothing else. -/
theorem ranked_unroll {is : List LoopIndex} {body u : Block} (h : unroll is body = .ok u)
    {p : Var × Nat} (hp : p ∈ u.ranked) : p ∈ body.ranked := by
  induction is generalizing u with
  | nil =>
    obtain rfl := Except.ok.inj h
    exact hp
  | cons i is ih =>
    obtain ⟨c, b, -, hb, hu⟩ := unroll_cons_eq_ok h
    refine ih hb ?_
    obtain ⟨copies, rfl, hcopies⟩ := expand_eq_ok hu
    rw [ranked_ofList, List.mem_flatMap] at hp
    obtain ⟨d, hd, hp⟩ := hp
    obtain ⟨k, r, -, rfl⟩ := forall₂_mem_right hcopies hd
    rwa [subst, ranked_mapExprs] at hp

/-- The extent of a checked range is not negative. -/
theorem extent_nonneg {i : LoopIndex} {c : Copies} (h : i.copies = .ok c) :
    0 ≤ c.extent.toInt := by
  unfold LoopIndex.copies at h
  split at h
  · exact nomatch h
  · next extent step _ =>
    by_cases hneg : extent < 0
    · rw [if_pos hneg] at h
      exact nomatch h
    · rw [if_neg hneg] at h
      have hc : c.extent = extent := by
        split at h
        · obtain ⟨_, -, h⟩ := bind_eq_ok_iff.1 h
          exact congrArg Copies.extent (Except.ok.inj h).symm
        · exact congrArg Copies.extent (Except.ok.inj h).symm
      rw [hc]
      exact Int.not_lt.1 fun hlt => hneg (Int64.lt_iff_toInt_lt.2 hlt)

/-- Copies of a body for one point at least allocate its buffers. -/
theorem allocated_unroll {is : List LoopIndex} {body u : Block} (h : unroll is body = .ok u)
    (his : ∀ i ∈ is, i.range.extent ≠ .int 0) {v : Var} (hv : v ∈ body.allocated) :
    v ∈ u.allocated := by
  induction is generalizing u with
  | nil =>
    obtain rfl := Except.ok.inj h
    exact hv
  | cons i is ih =>
    obtain ⟨hi, his⟩ := List.forall_mem_cons.1 his
    obtain ⟨c, b, hc, hb, hu⟩ := unroll_cons_eq_ok h
    have hpos : 0 < c.extent.toInt.toNat := by
      obtain ⟨-, -, hextent, -⟩ := LoopIndex.copies_eq_ok hc
      have hne : c.extent.toInt ≠ 0 := by
        intro h0
        have hzero : c.extent = 0 := Int64.toInt_inj.1 h0
        exact hi (hextent.trans (congrArg Expr.int hzero))
      have hnonneg := extent_nonneg hc
      omega
    obtain ⟨copies, rfl, hcopies⟩ := expand_eq_ok hu
    have hlen := hcopies.length_eq
    rw [List.length_range] at hlen
    obtain ⟨d, hd⟩ := List.exists_mem_of_length_pos (hlen ▸ hpos)
    obtain ⟨k, r, -, hcopy⟩ := forall₂_mem_right hcopies hd
    rw [allocated_ofList]
    refine List.mem_flatMap.2 ⟨d, hd, ?_⟩
    rw [hcopy, subst, allocated_mapExprs]
    exact ih hb his

theorem declare_eq (b : Block) (T : Shapes) : b.declare T = b.registrations.reverse ++ T := by
  induction b generalizing T with
  | seq a b iha ihb =>
    rw [declare, ihb, iha, registrations, registrations, registrations, allocs,
      List.filter_append, List.reverse_append, List.append_assoc]
  | loop _ _ body ih | bind _ body ih => exact ih T
  | alloc v shape storage body ih =>
    rw [declare, ih, registrations, registrations, allocs, addShape]
    by_cases hlen : 1 < shape.length
    · rw [if_pos hlen, List.filter_cons_of_pos (by simpa using hlen), List.reverse_cons,
        List.append_assoc, List.singleton_append]
    · rw [if_neg hlen, List.filter_cons_of_neg (by simpa using hlen)]
  | eval _ | store _ _ _ => rfl

/-! ## A property of all accesses -/

/-- Every load and store, as buffer and number of indices, has a property. -/
def Only (Q : Var × Nat → Prop) (b : Block) : Prop := ∀ p ∈ b.accesses, Q p

section

variable {Q : Var × Nat → Prop} {a b body : Block} {e : Expr}

theorem forall_mem_flatMap_accesses_iff {es : List Expr} :
    (∀ p ∈ es.flatMap Expr.accesses, Q p) ↔ ∀ e ∈ es, e.Only Q := List.forall_mem_flatMap

theorem only_seq_iff : (seq a b).Only Q ↔ a.Only Q ∧ b.Only Q := List.forall_mem_append

theorem only_loop_iff {k : LoopKind} {i : LoopIndex} :
    (loop k i body).Only Q ↔ (∀ e ∈ i.range.exprs, e.Only Q) ∧ body.Only Q := by
  rw [← forall_mem_flatMap_accesses_iff]
  exact List.forall_mem_append

theorem only_alloc_iff {v : Var} {shape : List Expr} {storage : String} :
    (alloc v shape storage body).Only Q ↔ (∀ e ∈ shape, e.Only Q) ∧ body.Only Q := by
  rw [← forall_mem_flatMap_accesses_iff]
  exact List.forall_mem_append

theorem only_bind_iff {bs : List Binding} :
    (bind bs body).Only Q ↔ (∀ b ∈ bs, b.value.Only Q) ∧ body.Only Q := by
  have hvalues : (∀ e ∈ bs.map Binding.value, e.Only Q) ↔ ∀ b ∈ bs, b.value.Only Q :=
    List.forall_mem_map
  rw [← hvalues, ← forall_mem_flatMap_accesses_iff]
  exact List.forall_mem_append

theorem only_eval_iff : (eval e).Only Q ↔ e.Only Q := Iff.rfl

theorem only_store_iff {v : Var} {is : List Expr} :
    (store v is e).Only Q ↔ Q (v, is.length) ∧ (∀ i ∈ is, i.Only Q) ∧ e.Only Q := by
  rw [← forall_mem_flatMap_accesses_iff]
  exact List.forall_mem_cons.trans (and_congr_right' List.forall_mem_append)

/-- Folding makes no new accesses. -/
theorem Only.fold (h : b.Only Q) : b.fold.Only Q := by
  induction b with
  | seq a b iha ihb =>
    rw [only_seq_iff] at h
    exact only_seq_iff.2 ⟨iha h.1, ihb h.2⟩
  | loop k i body ih =>
    obtain ⟨hrange, hbody⟩ := only_loop_iff.1 h
    refine only_loop_iff.2 ⟨?_, ih hbody⟩
    exact List.forall_mem_map (f := Expr.fold).2 fun e he => (hrange e he).fold
  | alloc v shape storage body ih =>
    obtain ⟨hshape, hbody⟩ := only_alloc_iff.1 h
    exact only_alloc_iff.2 ⟨List.forall_mem_map.2 fun d hd => (hshape d hd).fold, ih hbody⟩
  | bind bs body ih =>
    obtain ⟨hvalues, hbody⟩ := only_bind_iff.1 h
    exact only_bind_iff.2 ⟨List.forall_mem_map.2 fun x hx => (hvalues x hx).fold, ih hbody⟩
  | eval e => exact (only_eval_iff.1 h).fold
  | store v is e =>
    obtain ⟨hv, his, he⟩ := only_store_iff.1 h
    refine only_store_iff.2 ⟨?_, List.forall_mem_map.2 fun i hi => (his i hi).fold, he.fold⟩
    rwa [List.length_map]

end

end Block

/-! ## Accesses and what is registered before them -/

section

variable (R Known : Var × Nat → Prop)

/-- An access may be left, or it is known to fit the shape of its buffer, which is one of the
registered. -/
def Allowed (registered : List Var) (p : Var × Nat) : Prop := R p ∨ Known p ∧ p.1 ∈ registered

namespace Block

/-- Every access of a block is allowed at its place, after the buffers that were registered before
the block and those that the block registers before the access. -/
def Covered : List Var → Block → Prop
  | vs, seq a b => a.Covered vs ∧ b.Covered (a.registered ++ vs)
  | vs, loop _ i body => (∀ e ∈ i.range.exprs, e.Only (Allowed R Known vs)) ∧ body.Covered vs
  | vs, alloc v shape _ body => (∀ d ∈ shape, d.Only (Allowed R Known vs)) ∧
    body.Covered (addBuffer v shape vs)
  | vs, bind bs body => (∀ b ∈ bs, b.value.Only (Allowed R Known vs)) ∧ body.Covered vs
  | vs, eval e => e.Only (Allowed R Known vs)
  | vs, store v is e => Allowed R Known vs (v, is.length) ∧
    (∀ i ∈ is, i.Only (Allowed R Known vs)) ∧ e.Only (Allowed R Known vs)

/-- The same of blocks in order. -/
def CoveredAll : List Var → List Block → Prop
  | _, [] => True
  | vs, b :: bs => b.Covered R Known vs ∧ CoveredAll (b.registered ++ vs) bs

end Block

end

section

variable {R Known : Var × Nat → Prop} {vs ws : List Var} {b : Block} {bs : List Block}

theorem Allowed.imp {p : Var × Nat} (h : Allowed R Known vs p) (hp : p.1 ∈ vs → p.1 ∈ ws) :
    Allowed R Known ws p := h.imp_right fun h => ⟨h.1, hp h.2⟩

theorem Allowed.mono {p : Var × Nat} (h : Allowed R Known vs p) (hvs : ∀ v ∈ vs, v ∈ ws) :
    Allowed R Known ws p := h.imp (hvs p.1)

namespace Block

theorem mem_addBuffer_iff {u v : Var} {shape : List Expr} :
    u ∈ addBuffer v shape vs ↔ 1 < shape.length ∧ u = v ∨ u ∈ vs := by
  unfold addBuffer
  split
  · next hlen => simp [hlen]
  · next hlen => simp [hlen]

/-- The buffer of an allocation is registered where it has several dimensions. -/
theorem allowed_addBuffer (hlow : ∀ v n, n < 2 → R (v, n)) {v : Var} {shape : List Expr}
    (h : Allowed R Known ws (v, shape.length)) :
    Allowed R Known (addBuffer v shape vs) (v, shape.length) := by
  by_cases hlen : 1 < shape.length
  · exact h.imp fun _ => mem_addBuffer_iff.2 (.inl ⟨hlen, rfl⟩)
  · exact .inl (hlow v _ (by omega))

theorem Covered.mono (h : b.Covered R Known vs) (hvs : ∀ v ∈ vs, v ∈ ws) :
    b.Covered R Known ws := by
  have hexpr : ∀ {vs ws : List Var}, (∀ v ∈ vs, v ∈ ws) → ∀ e : Expr,
      e.Only (Allowed R Known vs) → e.Only (Allowed R Known ws) :=
    fun hvs e he => he.mono fun p hp => hp.mono hvs
  induction b generalizing vs ws with
  | seq a b iha ihb =>
    refine ⟨iha h.1 hvs, ihb h.2 fun v hv => ?_⟩
    rcases List.mem_append.1 hv with hv | hv
    · exact List.mem_append_left _ hv
    · exact List.mem_append_right _ (hvs v hv)
  | loop k i body ih => exact ⟨fun e he => hexpr hvs e (h.1 e he), ih h.2 hvs⟩
  | alloc v shape storage body ih =>
    refine ⟨fun d hd => hexpr hvs d (h.1 d hd), ih h.2 fun u hu => ?_⟩
    exact mem_addBuffer_iff.2 ((mem_addBuffer_iff.1 hu).imp_right (hvs u))
  | bind bs body ih => exact ⟨fun x hx => hexpr hvs _ (h.1 x hx), ih h.2 hvs⟩
  | eval e => exact hexpr hvs e h
  | store v is e => exact ⟨h.1.mono hvs, fun i hi => hexpr hvs i (h.2.1 i hi), hexpr hvs e h.2.2⟩

/-- What is put in for a variable must be allowed before the block. -/
theorem Covered.subst (h : b.Covered R Known vs) {x : Var} {r : Expr}
    (hr : r.Only (Allowed R Known vs)) : (b.subst [(x, r)]).Covered R Known vs := by
  induction b generalizing vs with
  | seq a b iha ihb =>
    refine ⟨iha h.1 hr, ?_⟩
    rw [registered_mapExprs]
    exact ihb h.2 (hr.mono fun p hp => hp.mono fun v => List.mem_append_right _)
  | loop k i body ih =>
    refine ⟨?_, ih h.2 hr⟩
    exact List.forall_mem_map (f := Expr.subst [(x, r)]).2 fun e he => (h.1 e he).subst hr
  | alloc v shape storage body ih =>
    refine ⟨List.forall_mem_map.2 fun d hd => (h.1 d hd).subst hr, ?_⟩
    rw [addBuffer, List.length_map]
    exact ih h.2 (hr.mono fun p hp => hp.mono fun u hu => mem_addBuffer_iff.2 (.inr hu))
  | bind bs body ih => exact ⟨List.forall_mem_map.2 fun y hy => (h.1 y hy).subst hr, ih h.2 hr⟩
  | eval e => exact Expr.Only.subst h hr
  | store v is e =>
    obtain ⟨hv, his, he⟩ := h
    refine ⟨?_, List.forall_mem_map.2 fun i hi => (his i hi).subst hr, he.subst hr⟩
    rwa [List.length_map]

theorem covered_ofList (h : CoveredAll R Known vs bs) : (ofList bs).Covered R Known vs := by
  induction bs generalizing vs with
  | nil => exact Expr.only_int 0
  | cons b bs ih =>
    cases bs with
    | nil => exact h.1
    | cons c cs => exact ⟨h.1, ih h.2⟩

theorem coveredAll_of_forall (h : ∀ b ∈ bs, b.Covered R Known vs) : CoveredAll R Known vs bs := by
  induction bs generalizing vs with
  | nil => trivial
  | cons b bs ih =>
    obtain ⟨hb, hbs⟩ := List.forall_mem_cons.1 h
    exact ⟨hb, ih fun c hc => (hbs c hc).mono fun v => List.mem_append_right _⟩

theorem covered_nest {kind : LoopKind} {is : List LoopIndex}
    (his : ∀ i ∈ is, ∀ e ∈ i.range.exprs, e.Only (Allowed R Known vs))
    (h : b.Covered R Known vs) : (nest kind is b).Covered R Known vs := by
  induction is with
  | nil => exact h
  | cons i is ih =>
    obtain ⟨hi, his⟩ := List.forall_mem_cons.1 his
    exact ⟨hi, ih his⟩

theorem covered_expand {c : Copies} {u : Block} (hu : c.expand b = .ok u)
    (hc : c.first.Only (Allowed R Known vs)) (h : b.Covered R Known vs) :
    u.Covered R Known vs := by
  obtain ⟨copies, rfl, hcopies⟩ := expand_eq_ok hu
  refine covered_ofList (coveredAll_of_forall fun d hd => ?_)
  obtain ⟨k, r, hr, rfl⟩ := forall₂_mem_right hcopies hd
  refine h.subst ?_
  obtain ⟨delta, -, ⟨_, n, -, rfl, -⟩ | rfl⟩ := Copies.offset_eq_ok hr
  · exact Expr.only_int n
  · exact hc.add (Expr.only_int delta)

/-- **The copies of a body are covered like the loops.** -/
theorem covered_unroll {is : List LoopIndex} {u : Block} (hu : unroll is b = .ok u)
    (his : ∀ i ∈ is, ∀ e ∈ i.range.exprs, e.Only (Allowed R Known vs))
    (h : b.Covered R Known vs) : u.Covered R Known vs := by
  induction is generalizing u with
  | nil =>
    obtain rfl := Except.ok.inj hu
    exact h
  | cons i is ih =>
    obtain ⟨hi, his⟩ := List.forall_mem_cons.1 his
    obtain ⟨c, d, hc, hd, hu⟩ := unroll_cons_eq_ok hu
    obtain ⟨-, hfirst, -⟩ := LoopIndex.copies_eq_ok hc
    have hrange : c.first.Only (Allowed R Known vs) := hfirst ▸ hi _ List.mem_cons_self
    exact covered_expand hu hrange (ih hd his)

end Block

end

/-! ## Flattening -/

/-- The shapes of a table have only accesses that may be left, and fit the known accesses to their
buffers. -/
def Shapes.Settles (R Known : Var × Nat → Prop) (T : Shapes) : Prop :=
  ∀ p ∈ T, (∀ d ∈ p.2, d.Only R) ∧ ∀ n, Known (p.1, n) → p.2.length = n ∨ R (p.1, n)

section

variable {R Known : Var × Nat → Prop} {vs : List Var} {T : Shapes}

/-- A known access to a buffer of the table is left only where it may be. -/
theorem Shapes.Settles.of_allowed (hT : T.Settles R Known) (hvs : ∀ v ∈ vs, v ∈ T.map Prod.fst)
    {v : Var} {n : Nat} (h : Allowed R Known vs (v, n))
    (hfind : ∀ shape, T.find? v = some shape → shape.length ≠ n) : R (v, n) := by
  rcases h with h | ⟨hknown, hv⟩
  · exact h
  · obtain ⟨shape, hshape⟩ : ∃ shape, T.find? v = some shape := by
      obtain ⟨p, hp, rfl⟩ := List.mem_map.1 (hvs v hv)
      have hsome : (List.find? (fun q => q.1 = p.1) T).isSome = true :=
        List.find?_isSome.2 ⟨p, hp, by simp⟩
      obtain ⟨q, hq⟩ := Option.isSome_iff_exists.1 hsome
      exact ⟨q.2, Option.map_eq_some_iff.2 ⟨q, hq, rfl⟩⟩
    rcases (hT _ (mem_of_find? hshape)).2 n hknown with hlen | h
    · exact absurd hlen (hfind shape hshape)
    · exact h

/-- **Flattening leaves what may be left.** -/
theorem Block.Covered.flatten {b : Block} (hlow : ∀ v n, n < 2 → R (v, n))
    (h : b.Covered R Known vs) (hvs : ∀ v ∈ vs, v ∈ T.map Prod.fst) (hT : T.Settles R Known)
    (hb : b.registrations.Settles R Known) : (b.flatten T).Only R := by
  have hexpr : ∀ {vs : List Var} {T : Shapes}, (∀ v ∈ vs, v ∈ T.map Prod.fst) →
      T.Settles R Known → ∀ e : Expr, e.Only (Allowed R Known vs) → (e.flatten T).Only R :=
    fun hvs hT e he => he.flatten hlow (fun p hp => (hT p hp).1) fun v n => hT.of_allowed hvs
  induction b generalizing vs T with
  | seq a b iha ihb =>
    rw [registrations, allocs, List.filter_append] at hb
    have ha : a.registrations.Settles R Known := fun p hp => hb p (List.mem_append_left _ hp)
    have hb : b.registrations.Settles R Known := fun p hp => hb p (List.mem_append_right _ hp)
    refine only_seq_iff.2 ⟨iha h.1 hvs hT ha, ihb h.2 (fun v hv => ?_) (fun p hp => ?_) hb⟩
    · rw [declare_eq, List.map_append, List.mem_append]
      rcases List.mem_append.1 hv with hv | hv
      · obtain ⟨n, hn, h1⟩ := mem_registered_iff.1 hv
        obtain ⟨p, hp, heq⟩ := List.mem_map.1 hn
        obtain ⟨rfl, rfl⟩ := Prod.mk.inj heq
        have hmem : p ∈ a.registrations := List.mem_filter.2 ⟨hp, by simpa using h1⟩
        exact .inl (List.mem_map.2 ⟨p, List.mem_reverse.2 hmem, rfl⟩)
      · exact .inr (hvs v hv)
    · rw [declare_eq, List.mem_append, List.mem_reverse] at hp
      exact hp.elim (ha p) (hT p)
  | loop k i body ih =>
    refine only_loop_iff.2 ⟨?_, ih h.2 hvs hT hb⟩
    exact List.forall_mem_map (f := Expr.flatten T).2 fun e he => hexpr hvs hT e (h.1 e he)
  | alloc v shape storage body ih =>
    have hbody : body.registrations.Settles R Known := fun p hp =>
      hb p (List.mem_filter.2 ⟨List.mem_cons_of_mem _ (List.mem_filter.1 hp).1,
        (List.mem_filter.1 hp).2⟩)
    have hown : 1 < shape.length → (v, shape) ∈ (alloc v shape storage body).registrations :=
      fun hlen => List.mem_filter.2 ⟨List.mem_cons_self, by simpa using hlen⟩
    refine only_alloc_iff.2 ⟨?_, ih h.2 (fun u hu => ?_) (fun p hp => ?_) hbody⟩
    · split
      · next hlen =>
        exact List.forall_mem_singleton.2 (Layout.only_count (hb _ (hown hlen)).1)
      · exact List.forall_mem_map.2 fun d hd => hexpr hvs hT d (h.1 d hd)
    · unfold addShape
      rcases mem_addBuffer_iff.1 hu with ⟨hlen, rfl⟩ | hu
      · rw [if_pos hlen]
        exact List.mem_cons_self
      · split
        · exact List.mem_cons_of_mem _ (hvs u hu)
        · exact hvs u hu
    · unfold addShape at hp
      split at hp
      · next hlen =>
        rcases List.mem_cons.1 hp with rfl | hp
        · exact hb _ (hown hlen)
        · exact hT p hp
      · exact hT p hp
  | bind bs body ih =>
    refine only_bind_iff.2 ⟨List.forall_mem_map.2 fun x hx => ?_, ih h.2 hvs hT hb⟩
    exact hexpr hvs hT _ (h.1 x hx)
  | eval e => exact hexpr hvs hT e h
  | store v is e =>
    obtain ⟨hv, his, he⟩ := h
    have his' : ∀ i ∈ is.map (Expr.flatten T), i.Only R :=
      List.forall_mem_map.2 fun i hi => hexpr hvs hT i (his i hi)
    obtain ⟨hindices, hall⟩ := Shapes.only_flatIndices hlow (fun p hp => (hT p hp).1)
      (fun hfind => by
        rw [List.length_map] at hfind ⊢
        exact hT.of_allowed hvs hv hfind) his'
    exact only_store_iff.2 ⟨hindices, hall, hexpr hvs hT e he⟩

end

end LoopNest
