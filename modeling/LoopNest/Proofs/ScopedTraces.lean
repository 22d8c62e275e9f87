import LoopNest.Proofs.ScopedTrees

/-!
# Well-scoped traces give closed kernels

A trace is well scoped if each of its operations mentions, at its moment, parameters and what the
open scopes bind. The kernel that it is lowered to is closed, whatever passes follow.

* `Operation.Scoped`, `Trace.WellScoped`: the traces;
* **`Operation.adds_of_perform`**, **`Trace.WellScoped.sound`**: one operation, and all of a trace;
* **`lower_closed`**: the body of a kernel.
-/

namespace LoopNest

/-! ## Well-scoped traces -/

/-- The parameters as a context. -/
def Signature.context (g : Signature) : Context := ⟨g.scalars, g.buffers.map Buffer.var⟩

/-- The parameters of a kernel, and what the open scopes of a trace bind. -/
def Trace.context (t : Trace) (g : Signature) : Context :=
  t.tree.contextOf g.context t.tree.opened

/-- What an operation records mentions only what belongs to a context. -/
def Operation.Scoped (Γ : Context) : Operation → Prop
  | allocate shape _ _ _ | enterAlloc shape _ _ _ => ∀ e ∈ shape, e.Within Γ
  | enterLoop _ decl => ∀ rs ∈ decl.ranges, ∀ r ∈ rs, r.Within Γ
  | letVar _ value => value.Within Γ
  | store target selectors value => ∀ b is, target.select selectors = .ok (.element b is) →
    b ∈ Γ.buffers ∧ (∀ i ∈ is, i.Within Γ) ∧ value.Within Γ
  | call _ _ args => ∀ e ∈ args, e.Within Γ
  | evaluate value => value.Within Γ
  | newVar _ _ | bindView _ | fill _ _ | load _ => True

/-- A trace of a kernel whose operations mentioned, each at its moment, only parameters and what the
scopes bound that were open then. Its variables are numbered after the parameters. -/
inductive Trace.WellScoped (g : Signature) : Trace → Prop where
  | start {fresh : Nat} (hfresh : ∀ v ∈ g.context.values ++ g.context.buffers, v.id < fresh) :
    WellScoped g (.start fresh)
  | perform {t u : Trace} {o : Operation} {h? : Option OpenScope} (ht : WellScoped g t)
    (ho : o.Scoped (t.context g)) (hu : o.perform t = .ok (h?, u)) : WellScoped g u
  | leave {t u : Trace} {h : OpenScope} (ht : WellScoped g t) (hu : t.leave h = .ok u) :
    WellScoped g u

theorem LoopDecl.range_of_check {decl : LoopDecl} {parts : List (String × Range × String)}
    (h : decl.check = .ok parts) : ∃ rs, decl.ranges = some rs ∧ ∀ p ∈ parts, p.2.1 ∈ rs := by
  unfold check at h
  split at h
  · exact nomatch h
  · split at h
    · exact nomatch h
    · next names _ _ rs hrs =>
      refine ⟨rs, hrs, fun p hp => ?_⟩
      have hpart : ∀ qs : List (Range × String), (∀ q ∈ qs, q.1 ∈ rs) →
          p ∈ names.zip qs → p.2.1 ∈ rs := fun qs hqs hp => hqs p.2 (List.of_mem_zip hp).2
      split at h
      · exact nomatch h
      · split at h
        · exact nomatch h
        · split at h
          · obtain rfl := Except.ok.inj h
            exact hpart _ (List.forall_mem_map.2 fun r hr => hr) hp
          · split at h
            · obtain rfl := Except.ok.inj h
              exact hpart _ (fun q hq => (List.of_mem_zip hq).1) hp
            · exact nomatch h

/-- What an operation adds to a trace: nothing, a statement or an open scope, which mentions only
what belongs to a context, and binds variables that are numbered from then on. -/
theorem Operation.adds_of_perform {t u : Trace} {o : Operation} {h? : Option OpenScope}
    {Γ : Context} (ho : o.Scoped Γ) (h : o.perform t = .ok (h?, u)) : t.fresh ≤ u.fresh ∧
      (u.tree = t.tree ∨ ∃ form implicit, form.Within Γ ∧ form.IsPlain ∧
        (∀ v ∈ form.vars, t.fresh ≤ v.id ∧ v.id < u.fresh) ∧
        (u.tree = t.tree.addChild form implicit ∨ u.tree = t.tree.enter form implicit)) := by
  have hlt := Nat.lt_succ_self t.fresh
  cases o with
  | newVar | bindView =>
    obtain ⟨-, rfl⟩ := Prod.mk.inj (Except.ok.inj h)
    exact ⟨by first | exact Nat.le_refl _ | exact Nat.le_succ _, .inl rfl⟩
  | allocate shape storage type name | enterAlloc shape storage type name =>
    obtain ⟨-, rfl⟩ := Prod.mk.inj (Except.ok.inj h)
    refine ⟨Nat.le_succ _,
      .inr ⟨.alloc ⟨t.fresh, name, type⟩ shape storage, _, ho, trivial, ?_, .inr rfl⟩⟩
    exact List.forall_mem_singleton.2 ⟨Nat.le_refl _, hlt⟩
  | letVar name value =>
    obtain ⟨-, rfl⟩ := Prod.mk.inj (Except.ok.inj h)
    refine ⟨Nat.le_succ _, .inr ⟨.bind [⟨⟨t.fresh, name, value.type⟩, value⟩], _,
      List.forall_mem_singleton.2 ho, trivial, ?_, .inr rfl⟩⟩
    exact List.forall_mem_singleton.2 ⟨Nat.le_refl _, hlt⟩
  | enterLoop kind decl =>
    obtain ⟨r, hr, h⟩ := bind_eq_ok_iff.1 h
    obtain ⟨-, rfl⟩ := Prod.mk.inj (Except.ok.inj h)
    obtain ⟨parts, hparts, -⟩ := bind_eq_ok_iff.1 hr
    obtain rfl := Except.ok.inj ((Script.enterLoop_eq hparts kind t).symm.trans hr)
    obtain ⟨hvars, -⟩ := Script.map_indices t.fresh parts
    obtain ⟨rs, hrs, hmem⟩ := LoopDecl.range_of_check hparts
    refine ⟨Nat.le_add_right _ _, .inr ⟨.loop kind (Script.indices t.fresh parts), _, ?_, trivial,
      ?_, .inr rfl⟩⟩
    · intro i hi
      obtain ⟨p, hp, hip⟩ := Script.exists_range_of_mem_indices hi
      exact ho rs hrs i.range (hip ▸ hmem p hp)
    · intro v hv
      have hv : v ∈ Script.numbered t.fresh (parts.map Prod.fst) := hvars ▸ hv
      have hlo := Script.le_id_of_mem_numbered hv
      have hhi := Script.id_lt_of_mem_numbered hv
      rw [List.length_map] at hhi
      exact ⟨hlo, hhi⟩
  | store target selectors value =>
    obtain ⟨v, hv, h⟩ := bind_eq_ok_iff.1 h
    obtain ⟨-, rfl⟩ := Prod.mk.inj (Except.ok.inj h)
    obtain ⟨b, is, hselect, rfl⟩ := Trace.store_eq_ok_iff.1 hv
    exact ⟨Nat.le_refl _, .inr ⟨.statement (.store b is value), false, ho b is hselect, trivial,
      List.forall_mem_nil _, .inl rfl⟩⟩
  | call type name args =>
    obtain ⟨-, rfl⟩ := Prod.mk.inj (Except.ok.inj h)
    have hcall : (Expr.call type name args).Within Γ := Expr.each_call_iff.2 ho
    exact ⟨Nat.le_refl _, .inr ⟨.statement (.eval (.call type name args)), false, hcall, trivial,
      List.forall_mem_nil _, .inl rfl⟩⟩
  | evaluate value =>
    obtain ⟨-, rfl⟩ := Prod.mk.inj (Except.ok.inj h)
    exact ⟨Nat.le_refl _, .inr ⟨.statement (.eval value), false, ho, trivial,
      List.forall_mem_nil _, .inl rfl⟩⟩
  | fill | load => exact nomatch h

/-- What holds of every well-scoped trace: its scopes have contexts, and variables of their own
after the parameters. -/
structure Trace.Sound (g : Signature) (t : Trace) : Prop where
  ordered : t.tree.Ordered
  contexts : ∃ Γ, t.tree.InScope g.context Γ
  numbered : ∃ lo, (∀ v ∈ g.context.values ++ g.context.buffers, v.id < lo) ∧ lo ≤ t.fresh ∧
    t.tree.Numbered lo t.fresh

/-- **Every well-scoped trace is sound.** -/
theorem Trace.WellScoped.sound {g : Signature} {t : Trace} (h : t.WellScoped g) : t.Sound g := by
  induction h with
  | @start fresh hfresh =>
    exact ⟨ScopeTree.ordered_empty, ⟨_, ScopeTree.inScope_empty g.context⟩, fresh, hfresh,
      Nat.le_refl _, ScopeTree.numbered_empty fresh fresh⟩
  | @perform t u o h? _ ho hu ih =>
    obtain ⟨hordered, ⟨Γ, hΓ⟩, lo, hlo, hle, hnumbered⟩ := ih
    obtain ⟨hfresh, htree | ⟨form, implicit, hform, hplain, hvars, htree | htree⟩⟩ :=
      Operation.adds_of_perform ho hu
    · exact ⟨htree ▸ hordered, ⟨Γ, htree ▸ hΓ⟩, lo, hlo, hle.trans hfresh,
        htree ▸ hnumbered.mono hfresh⟩
    · exact ⟨htree ▸ hordered.addChild form implicit,
        ⟨_, htree ▸ hΓ.addChild hordered hform implicit⟩, lo, hlo, hle.trans hfresh,
        htree ▸ hnumbered.addChild hle hfresh hplain hvars implicit⟩
    · have hadded := hnumbered.addChild hle hfresh hplain hvars implicit
      exact ⟨htree ▸ hordered.enter form implicit, ⟨_, htree ▸ hΓ.enter hordered hform implicit⟩,
        lo, hlo, hle.trans hfresh, htree ▸ hadded.of_entries rfl⟩
  | @leave t u h _ hu ih =>
    obtain ⟨hordered, ⟨Γ, hΓ⟩, lo, hlo, hle, hnumbered⟩ := ih
    obtain ⟨tree, htree, hu⟩ := bind_eq_ok_iff.1 hu
    obtain rfl := Except.ok.inj hu
    have hclosed := (ScopeTree.opened_of_close htree).1
    refine ⟨?_, ⟨Γ, hΓ.close htree⟩, lo, hlo, hle, hnumbered.of_entries hclosed⟩
    obtain ⟨h0, -, rfl⟩ := ScopeTree.close_eq_ok hordered htree
    exact hordered.closed h0

/-! ## Kernels -/

namespace Options

theorem binders_apply (o : Options) (views : List View) (b : Block) :
    (o.apply views b).binders = b.binders := by
  have hflat : (if o.flatten then b.flattenViews views else b).binders = b.binders := by
    split
    · exact Block.binders_flatten _ b
    · rfl
  rw [apply]
  by_cases hfold : o.simplify = true
  · rw [if_pos hfold, Block.fold, Block.binders_mapExprs, hflat]
  · rw [if_neg hfold, hflat]

/-- What flattening keeps closed, all passes keep closed. -/
theorem closedIn_apply {o : Options} {views : List View} {b : Block} {Γ : Context}
    (h : b.ClosedIn Γ) (hflat : (b.flattenViews views).ClosedIn Γ) :
    (o.apply views b).ClosedIn Γ := by
  have hpass : (if o.flatten then b.flattenViews views else b).ClosedIn Γ := by
    split
    · exact hflat
    · exact h
  rw [apply]
  by_cases hfold : o.simplify = true
  · rw [if_pos hfold]
    exact hpass.fold
  · rwa [if_neg hfold]

end Options

/-- **Well-scoped traces give closed kernels.** Take a kernel whose parameters have shapes that
mention parameters only, and whose trace is well scoped: every statement, range, shape and value
that it recorded mentioned only scalar parameters, indices of loops and bound values, and buffers
that are parameters or allocated, of the scopes that were open at that moment. If it is lowered,
with any options, then every variable in expression position of its body is a scalar parameter or
bound by a loop or a binding around it, and every buffer that is loaded or stored is a parameter or
allocated around it. No index of a loop that was to be written out is left anywhere. -/
theorem lower_closed {d : Definition Id} {k : Kernel}
    (hshapes : ∀ q ∈ d.signature.buffers, ∀ e ∈ q.shape, e.Within d.signature.context)
    (htrace : d.recorded.2.WellScoped d.signature) (hk : d.lower = .ok k) :
    k.body.ClosedIn d.signature.context ∧
      ∀ (id : Nat) (e : ScopeEntry) (is : List LoopIndex), d.recorded.2.tree.entries[id]? = some e →
        e.form = .loop .unroll is → ∀ i ∈ is, i.var ∉ k.body.vars := by
  obtain ⟨-, ⟨Γ, hΓ⟩, lo, hlo, hle, hnumbered⟩ := htrace.sound
  obtain ⟨b, hb, rfl⟩ := Definition.toBlock_of_lower hk
  obtain ⟨-, -, hb⟩ := bind_eq_ok_iff.1 hb
  have hclosed : b.ClosedIn d.signature.context := hΓ.root ▸ hΓ.closedIn hb
  obtain ⟨hunnested, hallocs⟩ := hnumbered.allocs hΓ hb
  -- a variable of a scope is no parameter
  have hparameter : ∀ (j : Nat) (e : ScopeEntry), d.recorded.2.tree.entries[j]? = some e →
      ∀ v ∈ e.form.vars, v ∉ d.signature.context.values ∧ v ∉ d.signature.context.buffers := by
    intro j e he v hv
    have hid := (hnumbered.bounds j e he v hv).1
    refine ⟨fun hvalue => ?_, fun hbuffer => ?_⟩
    · have := hlo v (List.mem_append_left _ hvalue)
      omega
    · have := hlo v (List.mem_append_right _ hbuffer)
      omega
  have hnew : ∀ p ∈ b.ranked, p.1 ∉ d.signature.context.buffers := by
    intro p hp
    obtain ⟨j, e, shape, storage, -, he, hform, -⟩ := hallocs p hp
    exact (hparameter j e he p.1 (hform ▸ List.mem_cons_self)).2
  have hflat : (b.flattenViews d.views).ClosedIn d.signature.context := by
    refine hclosed.flatten (fun v hv shape hfind e he => ?_) hunnested (fun v hv => ?_)
      (fun p hp q hq hpq => ?_) fun p hp _ => ?_
    · obtain ⟨q, hq, hqv⟩ := Definition.mem_shapes_iff.1 (Shapes.mem_of_find? hfind)
      obtain ⟨-, rfl⟩ := Prod.mk.inj hqv
      exact hshapes q hq e he
    · obtain ⟨n, hn, -⟩ := Block.mem_registered_iff.1 hv
      exact hnew (v, n) hn
    · obtain ⟨i, e, shape, storage, -, he, hform, hshape⟩ := hallocs p hp
      obtain ⟨j, f, shape', storage', -, hf, hform', hshape'⟩ := hallocs q hq
      obtain rfl := hnumbered.eq_of_mem_vars he hf (v := p.1) (hform ▸ List.mem_cons_self)
        (hform' ▸ hpq ▸ List.mem_cons_self)
      obtain ⟨-, hsame, -⟩ := ScopeForm.alloc.inj (hform.symm.trans hform')
      rw [hshape, hshape', hsame]
    · rw [Option.eq_none_iff_forall_ne_some]
      intro shape hfind
      obtain ⟨q, hq, hqp⟩ := Definition.mem_shapes_iff.1 (Shapes.mem_of_find? hfind)
      have hqp : q.var = p.1 := (Prod.mk.inj hqp).1
      exact hnew p hp (hqp ▸ List.mem_map_of_mem hq)
  have hbody := Options.closedIn_apply (o := d.options) hclosed hflat
  refine ⟨hbody, fun id e is he hform i hi hv => ?_⟩
  have hindex : i.var ∈ e.form.vars := hform ▸ List.mem_map_of_mem hi
  have hunrolled : e.form.IsUnrolled := hform ▸ trivial
  rcases Block.mem_of_mem_vars hbody hv with hv | hv | hv | hv
  · exact (hparameter id e he i.var hindex).1 hv
  · exact (hparameter id e he i.var hindex).2 hv
  · rw [Options.binders_apply] at hv
    obtain ⟨j, f, hf, hvf, hnot⟩ := hnumbered.binders hb i.var hv
    obtain rfl := hnumbered.eq_of_mem_vars he hf hindex hvf
    exact hnot hunrolled
  · rw [Options.allocated_apply] at hv
    obtain ⟨p, hp, hpv⟩ := List.mem_map.1 hv
    obtain ⟨j, f, shape, storage, -, hf, hform', -⟩ := hallocs (p.1, p.2.length)
      (List.mem_map.2 ⟨p, hp, rfl⟩)
    have hvf : i.var ∈ f.form.vars := hform' ▸ hpv ▸ List.mem_cons_self
    obtain rfl := hnumbered.eq_of_mem_vars he hf hindex hvf
    exact absurd (hform.symm.trans hform') ScopeForm.noConfusion

/-- An array for each point of a loop, whose shape is the point, with a store at two places from the
point on. The loop over them is written out. -/
def stairsKernel : Definition Id :=
  let n : Var := ⟨0, "n", .int32⟩
  let i : Var := ⟨1, "i", .int32⟩
  { fresh := 1
    signature := ⟨"stairs", [], [n]⟩
    options := .standard
    body := fun _ _ =>
      Tracing.forEach .spatial (.one "i" ⟨.int 0, n, .int 1⟩) fun _ => do
        let t ← Tracing.op fun u => u.allocate [i, .int 3] "local" .int32 "t"
        Tracing.forEach .unroll (.one "j" ⟨i, .int 2, .int 1⟩) fun js =>
          Tracing.act fun u => u.store t (js.map (fun j => .at j) ++ [.at (.int 1)]) n }

theorem lower_closed_stairsKernel : ∃ k, stairsKernel.lower = .ok k ∧
    k.body.ClosedIn stairsKernel.signature.context ∧
    (⟨3, "j", .int32⟩ : Var) ∉ k.body.vars := by
  obtain ⟨k, hk⟩ : ∃ k, stairsKernel.lower = .ok k := ⟨_, rfl⟩
  have htrace : stairsKernel.recorded.2.WellScoped stairsKernel.signature := by
    let n : Var := ⟨0, "n", .int32⟩
    let i : Var := ⟨1, "i", .int32⟩
    let t : Var := ⟨2, "t", .int32⟩
    let j : Var := ⟨3, "j", .int32⟩
    have hstart : Trace.WellScoped stairsKernel.signature (.start 1) := .start (by decide)
    have hrow := hstart.perform (o := .enterLoop .spatial (.one "i" ⟨.int 0, n, .int 1⟩))
      (by rintro rs ⟨⟩; decide) rfl
    have harray := hrow.perform (o := .allocate [i, .int 3] "local" .int32 "t")
      (by change ∀ e ∈ _, _; decide) rfl
    have hcells := harray.perform (o := .enterLoop .unroll (.one "j" ⟨i, .int 2, .int 1⟩))
      (by rintro rs ⟨⟩; decide) rfl
    have hselect : (View.root t [i, .int 3] "local").select [.at j, .at (.int 1)] =
      .ok (.element t [j, .int 1]) := rfl
    have hstore := hcells.perform (o := .store (.root t [i, .int 3] "local")
      [.at j, .at (.int 1)] n) (by
        intro b is h
        obtain ⟨rfl, rfl⟩ := Selection.element.inj (Except.ok.inj (hselect.symm.trans h))
        decide) rfl
    have hleave := hstore.leave (h := ⟨3⟩) rfl
    exact hleave.leave (h := ⟨1⟩) rfl
  have hshapes : ∀ q ∈ stairsKernel.signature.buffers, ∀ e ∈ q.shape,
      e.Within stairsKernel.signature.context := by decide
  obtain ⟨hclosed, hindices⟩ := lower_closed hshapes htrace hk
  exact ⟨k, hk, hclosed, hindices 3 _ _ rfl rfl _ List.mem_cons_self⟩

end LoopNest
