import LoopNest.Block.Vars
import LoopNest.Proofs.Coverage
import LoopNest.Proofs.Mentions

/-!
# Closed blocks

A block is closed in a context if every variable in expression position and every buffer that is
accessed belongs to the context or is bound around it: values by loops and bindings, buffers by
allocations. Writing out a loop makes its index a value of no context any more, and flattening
copies the shape of an allocation only to places inside the allocation.

* `Context`, `Expr.Within`, `Block.ClosedIn`;
* **`Block.ClosedIn.subst`**, **`Block.closedIn_unroll`**: loops that are written out;
* **`Block.ClosedIn.flatten`**, **`Block.ClosedIn.fold`**: the passes;
* **`Block.mem_of_mem_vars`**: where the variables of a closed block come from.
-/

namespace LoopNest

/-! ## Contexts -/

/-- Variables that stand for values, and variables that are buffers. -/
structure Context where
  values : List Var
  buffers : List Var
deriving DecidableEq

namespace Context

/-- With further values. -/
def addValues (Γ : Context) (vs : List Var) : Context := { Γ with values := vs ++ Γ.values }

/-- With one more buffer. -/
def addBuffer (Γ : Context) (v : Var) : Context := { Γ with buffers := v :: Γ.buffers }

/-- What belongs to one context belongs to the other. -/
structure Sub (Γ Δ : Context) : Prop where
  values : ∀ v ∈ Γ.values, v ∈ Δ.values
  buffers : ∀ v ∈ Γ.buffers, v ∈ Δ.buffers

variable {Γ Δ : Context}

theorem Sub.refl (Γ : Context) : Γ.Sub Γ := ⟨fun _ h => h, fun _ h => h⟩

theorem Sub.addValues (h : Γ.Sub Δ) (vs : List Var) : (Γ.addValues vs).Sub (Δ.addValues vs) :=
  ⟨fun v hv => List.mem_append.2 ((List.mem_append.1 hv).imp id (h.values v)), h.buffers⟩

theorem Sub.addBuffer (h : Γ.Sub Δ) (v : Var) : (Γ.addBuffer v).Sub (Δ.addBuffer v) :=
  ⟨h.values, List.cons_subset_cons v h.buffers⟩

theorem sub_addValues (Γ : Context) (vs : List Var) : Γ.Sub (Γ.addValues vs) :=
  ⟨fun _ hv => List.mem_append_right vs hv, fun _ hv => hv⟩

theorem sub_addBuffer (Γ : Context) (v : Var) : Γ.Sub (Γ.addBuffer v) :=
  ⟨fun _ hv => hv, fun _ hu => List.mem_cons_of_mem v hu⟩

theorem addValues_cons (Γ : Context) (v : Var) (vs : List Var) :
    (Γ.addValues (v :: vs)).Sub ((Γ.addValues [v]).addValues vs) := by
  refine ⟨fun u hu => ?_, fun _ h => h⟩
  simp only [addValues, List.mem_append, List.mem_cons, List.not_mem_nil, or_false] at hu ⊢
  tauto

end Context

/-- An expression mentions only what belongs to a context. -/
def Expr.Within (Γ : Context) (e : Expr) : Prop :=
  e.Each (· ∈ Γ.values) fun v _ => v ∈ Γ.buffers

instance (Γ : Context) (e : Expr) : Decidable (e.Within Γ) :=
  inferInstanceAs (Decidable (e.Each _ _))

theorem Expr.Within.mono {Γ Δ : Context} {e : Expr} (h : e.Within Γ) (hs : Γ.Sub Δ) :
    e.Within Δ := Each.mono h hs.values fun v _ => hs.buffers v

/-- The parts of a range mention only what belongs to a context. -/
def Range.Within (Γ : Context) (r : Range) : Prop := ∀ e ∈ r.exprs, e.Within Γ

instance (Γ : Context) (r : Range) : Decidable (r.Within Γ) :=
  inferInstanceAs (Decidable (∀ e ∈ r.exprs, e.Within Γ))

theorem Range.within_iff {Γ : Context} {r : Range} :
    r.Within Γ ↔ r.first.Within Γ ∧ r.extent.Within Γ ∧ r.step.Within Γ := by
  simp [Within, exprs]

theorem Expr.within_int (Γ : Context) (n : Word) : (Expr.int n).Within Γ := each_int n

theorem Copies.within_offset {Γ : Context} {c : Copies} {k : Int} {r : Expr}
    (h : c.offset k = .ok r) (hc : c.first.Within Γ) : r.Within Γ := by
  obtain ⟨delta, -, ⟨b, n, -, rfl, -⟩ | rfl⟩ := offset_eq_ok h
  · exact Expr.within_int Γ n
  · exact ⟨hc, Expr.within_int Γ delta⟩

/-- The shapes that a table has for the buffers of a context mention only what belongs to it. -/
def Shapes.FitIn (T : Shapes) (Γ : Context) : Prop :=
  ∀ v ∈ Γ.buffers, ∀ shape, T.find? v = some shape → ∀ d ∈ shape, d.Within Γ

theorem Shapes.FitIn.offers {T : Shapes} {Γ : Context} (h : T.FitIn Γ) :
    T.Offers (· ∈ Γ.values) fun v _ => v ∈ Γ.buffers :=
  fun v _ shape hv hfind => ⟨hv, h v hv shape hfind⟩

theorem Shapes.FitIn.addValues {T : Shapes} {Γ : Context} (h : T.FitIn Γ) (vs : List Var) :
    T.FitIn (Γ.addValues vs) :=
  fun v hv shape hfind d hd => (h v hv shape hfind d hd).mono (Γ.sub_addValues vs)

theorem Shapes.find?_addShape (v : Var) (shape : List Expr) (T : Shapes) (u : Var) :
    (Block.addShape v shape T).find? u =
      if 1 < shape.length ∧ v = u then some shape else T.find? u := by
  unfold Block.addShape
  by_cases hlen : 1 < shape.length <;> simp [hlen, find?_cons]

/-- An allocation adds a shape that fits, unless the table had one for an array of few
dimensions. -/
theorem Shapes.FitIn.addShape {T : Shapes} {Γ : Context} (h : T.FitIn Γ) {v : Var}
    {shape : List Expr} (hshape : ∀ e ∈ shape, e.Within Γ)
    (hlow : shape.length < 2 → T.find? v = none) :
    (Block.addShape v shape T).FitIn (Γ.addBuffer v) := by
  intro u hu s hfind d hd
  refine Expr.Within.mono ?_ (Γ.sub_addBuffer v)
  rw [find?_addShape] at hfind
  split at hfind
  · obtain rfl := Option.some.inj hfind
    exact hshape d hd
  · next hout =>
    rcases List.mem_cons.1 hu with rfl | hu
    · have hlen : shape.length < 2 := by
        by_contra hlen
        exact hout ⟨by omega, rfl⟩
      rw [hlow hlen] at hfind
      exact nomatch hfind
    · exact h u hu s hfind d hd

namespace Block

/-- Every variable in expression position and every accessed buffer belongs to the context or is
bound around it. -/
def ClosedIn : Block → Context → Prop
  | seq a b, Γ => a.ClosedIn Γ ∧ b.ClosedIn Γ
  | loop _ i body, Γ => i.range.Within Γ ∧ body.ClosedIn (Γ.addValues [i.var])
  | alloc v shape _ body, Γ => (∀ e ∈ shape, e.Within Γ) ∧ body.ClosedIn (Γ.addBuffer v)
  | bind bs body, Γ =>
    (∀ b ∈ bs, b.value.Within Γ) ∧ body.ClosedIn (Γ.addValues (bs.map Binding.var))
  | eval e, Γ => e.Within Γ
  | store v is e, Γ => v ∈ Γ.buffers ∧ (∀ i ∈ is, i.Within Γ) ∧ e.Within Γ

variable {Γ Δ : Context} {b : Block}

/-! ## Passes over expressions -/

/-- **A pass over expressions keeps a block closed**, where it turns expressions within one context
into expressions within another, and this stays so under binders. -/
theorem ClosedIn.mapExprs {f : Expr → Expr} {R : Context → Context → Prop}
    (hvalues : ∀ {Γ Δ} vs, R Γ Δ → R (Γ.addValues vs) (Δ.addValues vs))
    (hbuffer : ∀ {Γ Δ} v, R Γ Δ → R (Γ.addBuffer v) (Δ.addBuffer v))
    (hstore : ∀ {Γ Δ}, R Γ Δ → ∀ v ∈ Γ.buffers, v ∈ Δ.buffers)
    (hf : ∀ {Γ Δ e}, R Γ Δ → Expr.Within Γ e → (f e).Within Δ) (hR : R Γ Δ) (h : b.ClosedIn Γ) :
    (b.mapExprs f).ClosedIn Δ := by
  induction b generalizing Γ Δ with
  | seq a b iha ihb => exact ⟨iha hR h.1, ihb hR h.2⟩
  | loop k i body ih =>
    obtain ⟨hfirst, hextent, hstep⟩ := Range.within_iff.1 h.1
    exact ⟨Range.within_iff.2 ⟨hf hR hfirst, hf hR hextent, hf hR hstep⟩,
      ih (hvalues _ hR) h.2⟩
  | alloc v shape storage body ih =>
    exact ⟨List.forall_mem_map.2 fun e he => hf hR (h.1 e he), ih (hbuffer v hR) h.2⟩
  | bind bs body ih =>
    refine ⟨List.forall_mem_map.2 fun b hb => hf hR (h.1 b hb), ?_⟩
    rw [List.map_map]
    exact ih (hvalues _ hR) h.2
  | eval e => exact hf hR h
  | store v is e =>
    obtain ⟨hv, his, he⟩ := h
    exact ⟨hstore hR v hv, List.forall_mem_map.2 fun i hi => hf hR (his i hi), hf hR he⟩

/-- **Folding keeps a block closed.** -/
theorem ClosedIn.fold (h : b.ClosedIn Γ) : b.fold.ClosedIn Γ :=
  mapExprs (R := Eq) (fun _ h => h ▸ rfl) (fun _ h => h ▸ rfl) (fun h _ hv => h ▸ hv)
    (fun h he => h ▸ Expr.Each.fold he) rfl h

theorem ClosedIn.mono (h : b.ClosedIn Γ) (hs : Γ.Sub Δ) : b.ClosedIn Δ := by
  rw [← b.mapExprs_id]
  exact mapExprs (R := Context.Sub) (fun vs h => h.addValues vs) (fun v h => h.addBuffer v)
    Context.Sub.buffers (fun h he => Expr.Within.mono he h) hs h

/-- **What is put in for a variable closes the block where the variable does not belong.** -/
theorem ClosedIn.subst {x : Var} {r : Expr} (h : b.ClosedIn (Γ.addValues [x]))
    (hr : r.Within Γ) : (b.subst [(x, r)]).ClosedIn Γ := by
  refine mapExprs (R := fun Γ Δ => (∀ v ∈ Γ.values, v = x ∨ v ∈ Δ.values) ∧
    (∀ v ∈ Γ.buffers, v ∈ Δ.buffers) ∧ r.Within Δ) ?_ ?_ (fun h => h.2.1) ?_ ?_ h
  · rintro Γ Δ vs ⟨hvalues, hbuffers, hr⟩
    refine ⟨fun v hv => ?_, hbuffers, hr.mono (Δ.sub_addValues vs)⟩
    obtain hv | hv := List.mem_append.1 hv
    · exact .inr (List.mem_append_left _ hv)
    · exact (hvalues v hv).imp id (List.mem_append_right vs)
  · rintro Γ Δ u ⟨hvalues, hbuffers, hr⟩
    exact ⟨hvalues, List.cons_subset_cons u hbuffers, hr.mono (Δ.sub_addBuffer u)⟩
  · rintro Γ Δ e ⟨hvalues, hbuffers, hr⟩ he
    exact Expr.Each.subst he hvalues (fun v _ => hbuffers v) hr
  · exact ⟨fun v hv => List.mem_cons.1 hv, fun _ hv => hv, hr⟩

/-! ## Loops -/

theorem closedIn_ofList {bs : List Block} (h : ∀ b ∈ bs, b.ClosedIn Γ) :
    (ofList bs).ClosedIn Γ := by
  induction bs with
  | nil => exact Expr.within_int Γ 0
  | cons b bs ih =>
    obtain ⟨hb, hbs⟩ := List.forall_mem_cons.1 h
    cases bs with
    | nil => exact hb
    | cons c cs => exact ⟨hb, ih hbs⟩

/-- Loops around a block that is closed with their indices. -/
theorem closedIn_nest {kind : LoopKind} {is : List LoopIndex} {body : Block}
    (hr : ∀ i ∈ is, i.range.Within Γ) (h : body.ClosedIn (Γ.addValues (is.map LoopIndex.var))) :
    (nest kind is body).ClosedIn Γ := by
  induction is generalizing Γ with
  | nil => exact h
  | cons i is ih =>
    obtain ⟨hi, his⟩ := List.forall_mem_cons.1 hr
    have hsub := Γ.sub_addValues [i.var]
    exact ⟨hi, ih (fun j hj e he => (his j hj e he).mono hsub) (h.mono (Γ.addValues_cons _ _))⟩

/-- **Loops that are written out leave no index**: a body that is closed with the indices becomes a
block that is closed without them. -/
theorem closedIn_unroll {is : List LoopIndex} {body u : Block} (hr : ∀ i ∈ is, i.range.Within Γ)
    (h : body.ClosedIn (Γ.addValues (is.map LoopIndex.var))) (hu : unroll is body = .ok u) :
    u.ClosedIn Γ := by
  induction is generalizing Γ u with
  | nil =>
    obtain rfl := Except.ok.inj hu
    exact h
  | cons i is ih =>
    obtain ⟨hi, his⟩ := List.forall_mem_cons.1 hr
    obtain ⟨c, b, hc, hb, hu⟩ := unroll_cons_eq_ok hu
    obtain ⟨hvar, hfirst, -, -⟩ := LoopIndex.copies_eq_ok hc
    have hclosed : b.ClosedIn (Γ.addValues [i.var]) :=
      ih (fun j hj e he => (his j hj e he).mono (Γ.sub_addValues _))
        (h.mono (Γ.addValues_cons _ _)) hb
    obtain ⟨copies, rfl, hcopies⟩ := expand_eq_ok hu
    refine closedIn_ofList fun d hd => ?_
    obtain ⟨k, r, hk, rfl⟩ := forall₂_mem_right hcopies hd
    rw [hvar]
    exact hclosed.subst (Copies.within_offset hk (hfirst ▸ (Range.within_iff.1 hi).1))

/-! ## Flattening -/

/-- **Flattening keeps a block closed.** What the block registers is not in the context, each buffer
that it allocates has one number of dimensions, and the table has no shape for those with less than
two. -/
theorem ClosedIn.flatten {T : Shapes} (h : b.ClosedIn Γ) (hT : T.FitIn Γ)
    (hunnested : b.isUnnested = true) (hfree : ∀ v ∈ b.registered, v ∉ Γ.buffers)
    (hone : ∀ p ∈ b.ranked, ∀ q ∈ b.ranked, p.1 = q.1 → p.2 = q.2)
    (hlow : ∀ p ∈ b.ranked, p.2 < 2 → T.find? p.1 = none) : (b.flatten T).ClosedIn Γ := by
  induction b generalizing Γ T with
  | seq a b iha ihb =>
    have hranked : (seq a b).ranked = a.ranked ++ b.ranked := List.map_append
    rw [isUnnested, Bool.and_eq_true] at hunnested
    rw [registered, List.forall_mem_append] at hfree
    rw [hranked] at hone hlow
    rw [List.forall_mem_append] at hlow
    refine ⟨iha h.1 hT hunnested.1 hfree.1 (fun p hp q hq => ?_) hlow.1, ?_⟩
    · exact hone p (List.mem_append_left _ hp) q (List.mem_append_left _ hq)
    · -- what `a` registers is not in the context, and has several dimensions in `b` too
      have hdeclare : ∀ v ∈ Γ.buffers, (a.declare T).find? v = T.find? v := fun v hv =>
        find?_declare (fun hva => hfree.1 v hva hv) T
      refine ihb h.2 (fun v hv shape hfind => hT v hv shape ?_) hunnested.2 hfree.2
        (fun p hp q hq => ?_) fun p hp hp2 => ?_
      · rwa [hdeclare v hv] at hfind
      · exact hone p (List.mem_append_right _ hp) q (List.mem_append_right _ hq)
      · have hregistered : p.1 ∉ a.registered := by
          intro hpa
          obtain ⟨n, hn, h1⟩ := mem_registered_iff.1 hpa
          have heq : p.2 = n := hone p (List.mem_append_right _ hp) (p.1, n)
            (List.mem_append_left _ hn) rfl
          omega
        rw [find?_declare hregistered]
        exact hlow.2 p hp hp2
  | loop k i body ih =>
    obtain ⟨hfirst, hextent, hstep⟩ := Range.within_iff.1 h.1
    refine ⟨Range.within_iff.2 ⟨hfirst.flatten hT.offers, hextent.flatten hT.offers,
      hstep.flatten hT.offers⟩, ?_⟩
    exact ih h.2 (hT.addValues _) hunnested hfree hone hlow
  | alloc v shape storage body ih =>
    have hranked : (alloc v shape storage body).ranked = (v, shape.length) :: body.ranked := rfl
    rw [isUnnested, Bool.and_eq_true] at hunnested
    rw [hranked] at hone hlow
    have hbody : ∀ u ∈ body.registered, u ∉ (Γ.addBuffer v).buffers := by
      intro u hu hmem
      rcases List.mem_cons.1 hmem with rfl | hmem
      · obtain ⟨n, hn, h1⟩ := mem_registered_iff.1 hu
        have heq : shape.length = n := hone _ List.mem_cons_self _ (List.mem_cons_of_mem _ hn) rfl
        have hout := hunnested.1
        simp only [Bool.or_eq_true, decide_eq_true_eq] at hout
        exact hout.elim (fun hlen => by omega) fun hout => hout hu
      · refine hfree u ?_ hmem
        rw [registered]
        split
        · exact List.mem_cons_of_mem v hu
        · exact hu
    have hfit := hT.addShape h.1 (hlow _ List.mem_cons_self)
    refine ⟨?_, ih h.2 hfit hunnested.2 hbody
      (fun p hp q hq => hone p (List.mem_cons_of_mem _ hp) q (List.mem_cons_of_mem _ hq))
      fun p hp hp2 => ?_⟩
    · split
      · exact List.forall_mem_singleton.2 (Layout.each_count h.1)
      · exact List.forall_mem_map.2 fun e he => Expr.Each.flatten (h.1 e he) hT.offers
    · have hout : ¬(1 < shape.length ∧ v = p.1) := by
        rintro ⟨hlen, hv⟩
        have heq : shape.length = p.2 := hone _ List.mem_cons_self _ (List.mem_cons_of_mem _ hp) hv
        omega
      rw [Shapes.find?_addShape, if_neg hout]
      exact hlow p (List.mem_cons_of_mem _ hp) hp2
  | bind bs body ih =>
    refine ⟨List.forall_mem_map.2 fun b hb => (h.1 b hb).flatten hT.offers, ?_⟩
    rw [List.map_map]
    exact ih h.2 (hT.addValues _) hunnested hfree hone hlow
  | eval e => exact Expr.Each.flatten h hT.offers
  | store v is e =>
    obtain ⟨hv, his, he⟩ := h
    have his' : ∀ i ∈ is.map (Expr.flatten T), i.Within Γ :=
      List.forall_mem_map.2 fun i hi => Expr.Each.flatten (his i hi) hT.offers
    exact ⟨hv, (hT.offers.flatIndices (L := fun v _ => v ∈ Γ.buffers) hv his').2,
      Expr.Each.flatten he hT.offers⟩

/-! ## The variables of a closed block -/

/-- **A variable of a closed block** is one of its context, or the block binds or allocates it. -/
theorem mem_of_mem_vars (h : b.ClosedIn Γ) {v : Var} (hv : v ∈ b.vars) :
    v ∈ Γ.values ∨ v ∈ Γ.buffers ∨ v ∈ b.binders ∨ v ∈ b.allocated := by
  have hexpr : ∀ {Γ : Context} {e : Expr}, e.Within Γ → ∀ v ∈ e.vars,
      v ∈ Γ.values ∨ v ∈ Γ.buffers := fun he =>
    Expr.each_vars (Expr.Each.mono he (fun _ h => .inl h) fun _ _ h => .inr h)
  have hexprs : ∀ {Γ : Context} {es : List Expr}, (∀ e ∈ es, e.Within Γ) →
      ∀ v ∈ Expr.varsAll es, v ∈ Γ.values ∨ v ∈ Γ.buffers := fun hes v hv => by
    rw [Expr.varsAll_eq_flatMap, List.mem_flatMap] at hv
    obtain ⟨e, he, hv⟩ := hv
    exact hexpr (hes e he) v hv
  induction b generalizing Γ with
  | seq a b iha ihb =>
    have hseq : (seq a b).allocated = a.allocated ++ b.allocated := List.map_append
    rw [binders, hseq, List.mem_append, List.mem_append]
    rcases List.mem_append.1 hv with hv | hv
    · have := iha h.1 hv
      tauto
    · have := ihb h.2 hv
      tauto
  | loop k i body ih =>
    have hbody : (loop k i body).allocated = body.allocated := rfl
    obtain ⟨hfirst, hextent, hstep⟩ := Range.within_iff.1 h.1
    rw [vars, List.mem_cons, List.mem_append, Range.vars, List.mem_append, List.mem_append] at hv
    rw [binders, hbody, List.mem_cons]
    rcases hv with rfl | ((hv | hv) | hv) | hv
    · tauto
    · have := hexpr hfirst v hv
      tauto
    · have := hexpr hextent v hv
      tauto
    · have := hexpr hstep v hv
      tauto
    · have := ih h.2 hv
      simp only [Context.addValues, List.mem_append, List.mem_singleton] at this
      tauto
  | alloc u shape storage body ih =>
    have hbody : (alloc u shape storage body).allocated = u :: body.allocated := rfl
    rw [vars, List.mem_cons, List.mem_append] at hv
    rw [binders, hbody, List.mem_cons]
    rcases hv with rfl | hv | hv
    · tauto
    · have := hexprs h.1 v hv
      tauto
    · have := ih h.2 hv
      simp only [Context.addBuffer, List.mem_cons] at this
      tauto
  | bind bs body ih =>
    have hbody : (bind bs body).allocated = body.allocated := rfl
    rw [vars, List.mem_append] at hv
    rw [binders, hbody, List.mem_append]
    rcases hv with hv | hv
    · obtain ⟨b, hb, hv⟩ := List.mem_flatMap.1 hv
      rcases List.mem_cons.1 hv with rfl | hv
      · exact .inr (.inr (.inl (.inl (List.mem_map_of_mem hb))))
      · have := hexpr (h.1 b hb) v hv
        tauto
    · have := ih h.2 hv
      simp only [Context.addValues, List.mem_append] at this
      tauto
  | eval e =>
    have := hexpr h v hv
    tauto
  | store u is e =>
    obtain ⟨hu, his, he⟩ := h
    rw [vars, List.mem_cons, List.mem_append] at hv
    rcases hv with rfl | hv | hv
    · exact .inr (.inl hu)
    · have := hexprs his v hv
      tauto
    · have := hexpr he v hv
      tauto

end Block

end LoopNest
