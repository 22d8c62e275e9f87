import LoopNest.Proofs.Execution
import LoopNest.Scope.Lower

/-!
# Unrolling preserves a run

A loop that is written out does what the loop does: the copy for a point has an expression for the
point in place of the variable. The expression must mean the same wherever the variable stood, so it
reads no memory, and nothing in the body gives another value to its variables.

* **`Expr.eval_subst`**, **`Block.exec_subst`**: putting it in for a variable;
* **`Copies.denotes_offset`**: the points of a range;
* **`unroll_preserves_run`**: several indices.
-/

namespace LoopNest

section

variable {F : Type} {M : Machine F} {w : Bounds} {ρ : Env F} {μ : Memory F}

/-! ## Substitution in expressions -/

namespace Expr

theorem Denotes.set {e : Expr} {n : Int} (h : e.Denotes M ρ n) (hp : e.isPure = true) {v : Var}
    (hv : v ∉ e.vars) (x : Value F) : e.Denotes M (ρ.set M v x) n :=
  h.of_agree hp fun u hu => (ρ.set_of_ne M (fun huv : u = v => hv (huv ▸ hu)) x).symm

theorem evalAll_map {es : List Expr} {f : Expr → Expr} {τ : Env F}
    (h : ∀ e ∈ es, (f e).eval M w ρ μ = e.eval M w τ μ) :
    evalAll M w ρ μ (es.map f) = evalAll M w τ μ es := by
  induction es with
  | nil => rfl
  | cons e es ih =>
    funext log
    obtain ⟨he, hes⟩ := List.forall_mem_cons.1 h
    rw [List.map_cons, evalAll, evalAll, he, ih hes]

variable {x : Var} {r : Expr} {n : Int}

theorem subst_var (v : Var) : (var v).subst [(x, r)] = if x = v then r else var v := by
  rw [subst, bottomUp, substRule]
  split <;> simp_all [Substitution.find?]

@[simp] theorem subst_load (σ : Substitution) (v : Var) (is : List Expr) :
    (load v is).subst σ = load v (is.map (subst σ)) := by
  rw [subst, bottomUp, bottomUpAll_eq_map]
  rfl

@[simp] theorem subst_call (σ : Substitution) (t : ElemType) (f : String) (as : List Expr) :
    (call t f as).subst σ = call t f (as.map (subst σ)) := by
  rw [subst, bottomUp, bottomUpAll_eq_map]
  rfl

@[simp] theorem subst_binary (σ : Substitution) (op : Operator) (a b : Expr) :
    (binary op a b).subst σ = binary op (a.subst σ) (b.subst σ) := rfl

@[simp] theorem subst_cast (σ : Substitution) (t : ElemType) (a : Expr) :
    (cast t a).subst σ = cast t (a.subst σ) := rfl

/-- **An expression put in for a variable means its value in the variable.** -/
theorem eval_subst (hx : x.type.isInt = true) (hr : r.Denotes M ρ n) (e : Expr) :
    (e.subst [(x, r)]).eval M w ρ μ = e.eval M w (ρ.set M x (.int n)) μ := by
  induction e using inductionOn with
  | int _ | float _ | str _ => rfl
  | var v =>
    funext log
    rw [subst_var, eval]
    split
    · next hv => rw [← hv, hr w μ log, Env.set_self, M.assign_int hx]
    · next hv => rw [eval, Env.set_of_ne _ _ (Ne.symm hv)]
  | binary op a b iha ihb =>
    funext log
    rw [subst_binary, eval, eval, iha, ihb]
  | cast t a iha =>
    funext log
    rw [subst_cast, eval, eval, iha]
  | load v is ih =>
    funext log
    rw [subst_load, eval, eval, evalAll_map ih]
  | call t f as ih =>
    funext log
    rw [subst_call, eval, eval, evalAll_map ih]

theorem number_subst (hx : x.type.isInt = true) (hr : r.Denotes M ρ n) (e : Expr) :
    (e.subst [(x, r)]).number M w ρ μ = e.number M w (ρ.set M x (.int n)) μ := by
  funext log
  rw [number, number, eval_subst hx hr]

theorem numbers_subst (hx : x.type.isInt = true) (hr : r.Denotes M ρ n) (es : List Expr) :
    numbers M w ρ μ (es.map (subst [(x, r)])) = numbers M w (ρ.set M x (.int n)) μ es := by
  funext log
  rw [numbers, numbers, evalAll_map fun e _ => eval_subst hx hr e]

end Expr

/-! ## Substitution in statements -/

variable {x : Var} {r : Expr} {n : Int}

theorem Range.points_subst (hx : x.type.isInt = true) (hr : r.Denotes M ρ n) (g : Range) :
    (g.mapExprs (Expr.subst [(x, r)])).points M w ρ μ = g.points M w (ρ.set M x (.int n)) μ := by
  funext log
  simp only [points, mapExprs, Expr.number_subst hx hr]

namespace Block

/-- Bindings that touch neither the variable nor what is put in for it. -/
theorem bindAll_subst (hx : x.type.isInt = true) (hp : r.isPure = true) {bs : List Binding}
    (hbs : ∀ b ∈ bs, b.var ≠ x ∧ b.var ∉ r.vars) (hr : r.Denotes M ρ n) (log : Log F) :
    bindAll M w μ bs (ρ.set M x (.int n)) log =
        (bindAll M w μ (bs.map fun b => { b with value := b.value.subst [(x, r)] }) ρ log).map
          (fun p => (p.1.set M x (.int n), p.2)) ∧
      ∀ τ log', bindAll M w μ (bs.map fun b => { b with value := b.value.subst [(x, r)] }) ρ log =
        some (τ, log') → r.Denotes M τ n := by
  induction bs generalizing ρ log with
  | nil =>
    refine ⟨rfl, fun τ log' h => ?_⟩
    obtain ⟨rfl, -⟩ := Prod.mk.inj (Option.some.inj h)
    exact hr
  | cons b bs ih =>
    obtain ⟨hbx, hbr⟩ := hbs b List.mem_cons_self
    simp only [List.map_cons, bindAll, Expr.eval_subst hx hr]
    cases b.value.eval M w (ρ.set M x (.int n)) μ log with
    | none => exact ⟨rfl, fun _ _ h => by simp at h⟩
    | some p =>
      have ih := ih (fun c hc => hbs c (List.mem_cons_of_mem b hc)) (hr.set hp hbr p.1) p.2
      rw [Env.set_comm M ρ hbx] at ih
      exact ih

/-- **An expression put in for a variable in a block means its value in the variable**, if no loop
and no binding of the block touches either. -/
theorem exec_subst (hx : x.type.isInt = true) (hp : r.isPure = true) {b : Block}
    (hb : ∀ v ∈ b.binders, v ≠ x ∧ v ∉ r.vars) {s : State F} (hr : r.Denotes M ρ n) :
    (b.subst [(x, r)]).exec M w ρ s = b.exec M w (ρ.set M x (.int n)) s := by
  induction b generalizing w ρ s with
  | seq a b iha ihb =>
    simp only [binders, List.mem_append] at hb
    have ha : ∀ s, (a.mapExprs _).exec M w ρ s = a.exec M w _ s := fun s =>
      iha (fun v hv => hb v (.inl hv)) hr
    have hb : ∀ s, (b.mapExprs _).exec M w ρ s = b.exec M w _ s := fun s =>
      ihb (fun v hv => hb v (.inr hv)) hr
    simp only [subst, mapExprs, exec, ha, hb]
  | loop k i body ih =>
    simp only [binders, List.mem_cons, forall_eq_or_imp] at hb
    obtain ⟨⟨hix, hir⟩, hb⟩ := hb
    have hbody : ∀ m s, (body.mapExprs _).exec M w (ρ.set M i.var (.int m)) s = body.exec M w _ s :=
      fun m s => ih hb (hr.set hp hir _)
    simp only [subst, mapExprs, exec, Range.points_subst hx hr, hbody, Env.set_comm M ρ hix]
  | alloc v shape storage body ih =>
    have hbody : ∀ w s, (body.mapExprs _).exec M w ρ s = body.exec M w _ s := fun w s => ih hb hr
    simp only [subst, mapExprs, exec, Expr.numbers_subst hx hr, hbody]
  | bind bs body ih =>
    simp only [binders, List.mem_append, List.mem_map] at hb
    have hbs : ∀ b ∈ bs, b.var ≠ x ∧ b.var ∉ r.vars := fun b h => hb b.var (.inl ⟨b, h, rfl⟩)
    rw [subst, mapExprs, exec, exec, (bindAll_subst hx hp hbs hr s.log).1]
    cases hτ : bindAll M w s.memory (bs.map fun b => { b with value := b.value.subst [(x, r)] }) ρ
        s.log with
    | none => rfl
    | some p =>
      have hden := (bindAll_subst hx hp hbs hr s.log).2 p.1 p.2 hτ
      exact ih (fun v hv => hb v (.inr hv)) hden
  | eval e =>
    rw [subst, mapExprs, exec, exec, Expr.eval_subst hx hr]
  | store v is e =>
    rw [subst, mapExprs, exec, exec, Expr.numbers_subst hx hr, Expr.eval_subst hx hr]

end Block

end

/-! ## The points of a range -/

theorem forall₂_of_mapM_eq_ok {ε α β : Type} {f : α → Except ε β} {xs : List α} {ys : List β}
    (h : xs.mapM f = .ok ys) : List.Forall₂ (fun x y => f x = .ok y) xs ys := by
  induction xs generalizing ys with
  | nil =>
    obtain rfl := Except.ok.inj h
    exact .nil
  | cons x xs ih =>
    rw [List.mapM_cons, bind_eq_ok_iff] at h
    obtain ⟨y, hy, h⟩ := h
    obtain ⟨zs, hzs, h⟩ := bind_eq_ok_iff.1 h
    obtain rfl := Except.ok.inj h
    exact .cons hy (ih hzs)

theorem forall₂_mem_right {α β : Type} {R : α → β → Prop} {xs : List α} {ys : List β}
    (h : List.Forall₂ R xs ys) {y : β} (hy : y ∈ ys) : ∃ x, R x y := by
  induction h with
  | nil => exact absurd hy List.not_mem_nil
  | @cons x z xs ys hxz _ ih =>
    obtain rfl | hy := List.mem_cons.1 hy
    · exact ⟨x, hxz⟩
    · exact ih hy

/-- A checked range has literals for its extent and its step. -/
theorem LoopIndex.copies_eq_ok {i : LoopIndex} {c : Copies} (h : i.copies = .ok c) :
    c.var = i.var ∧ c.first = i.range.first ∧ i.range.extent = .int c.extent ∧
      i.range.step = .int c.step := by
  unfold copies at h
  split at h
  · exact nomatch h
  · next extent step hlit =>
    have hlit : i.range.extent = .int extent ∧ i.range.step = .int step := by
      simp only [Range.literal?, Option.bind_eq_bind, Option.bind_eq_some_iff, Option.some.injEq,
        Prod.mk.injEq] at hlit
      obtain ⟨e, he, t, ht, rfl, rfl⟩ := hlit
      exact ⟨Expr.literal?_eq_some_iff.1 he, Expr.literal?_eq_some_iff.1 ht⟩
    split at h
    · exact nomatch h
    · split at h
      · obtain ⟨_, -, h⟩ := bind_eq_ok_iff.1 h
        obtain rfl := Except.ok.inj h
        exact ⟨rfl, rfl, hlit⟩
      · obtain rfl := Except.ok.inj h
        exact ⟨rfl, rfl, hlit⟩

namespace Copies

theorem offset_eq_ok {c : Copies} {k : Int} {r : Expr} (h : c.offset k = .ok r) :
    ∃ delta : Word, delta.toInt = k * c.step.toInt ∧
      ((∃ b n : Word, c.first = .int b ∧ r = .int n ∧ n.toInt = b.toInt + delta.toInt) ∨
        r = c.first + .int delta) := by
  unfold offset at h
  split at h
  · exact nomatch h
  · next delta hdelta =>
    refine ⟨delta, Word.ofInt?_eq_some_iff.1 hdelta, ?_⟩
    split at h
    · next b hb =>
      split at h
      · exact nomatch h
      · next n hn =>
        exact .inl ⟨b, n, hb, (Except.ok.inj h).symm, Word.ofInt?_eq_some_iff.1 hn⟩
    · exact .inr (Except.ok.inj h).symm

theorem isPure_offset {c : Copies} {k : Int} {r : Expr} (h : c.offset k = .ok r)
    (hp : c.first.isPure = true) : r.isPure = true ∧ ∀ v ∈ r.vars, v ∈ c.first.vars := by
  obtain ⟨delta, -, ⟨b, n, -, rfl, -⟩ | rfl⟩ := offset_eq_ok h
  · exact ⟨rfl, fun v hv => absurd hv List.not_mem_nil⟩
  · refine ⟨?_, fun v hv => ?_⟩
    · change (c.first.isPure && true) = true
      rw [hp, Bool.and_true]
    · change v ∈ c.first.vars ++ [] at hv
      rwa [List.append_nil] at hv

/-- **Copy `k` has an expression for point `k` of the range.** -/
theorem denotes_offset {F : Type} {M : Machine F} {ρ : Env F} {c : Copies} {k : Int} {r : Expr}
    (h : c.offset k = .ok r) (hp : c.first.isPure = true) {w : Bounds} {μ : Memory F}
    {log log' : Log F} {n : Int} (hn : c.first.number M w ρ μ log = some (n, log')) :
    r.Denotes M ρ (n + k * c.step.toInt) := by
  have hcounts : c.first.Counts M ρ n := Expr.counts_of_isPure hp (fun _ _ => rfl) hn
  obtain ⟨delta, hdelta, ⟨b, m, hb, rfl, hm⟩ | rfl⟩ := offset_eq_ok h
  · intro w μ log
    have hn := hcounts w μ log
    rw [hb] at hn
    obtain ⟨x, hx, hwhole⟩ := Expr.number_iff.1 hn
    obtain ⟨rfl, -⟩ := Expr.eval_int_iff.1 hx
    obtain rfl : b.toInt = n := Option.some.inj hwhole
    exact Expr.eval_int_iff.2 ⟨by rw [hm, hdelta], rfl⟩
  · intro w μ log
    obtain ⟨x, hx, hwhole⟩ := Expr.number_iff.1 (hcounts w μ log)
    refine Expr.eval_binary_iff.2 ⟨x, log, .int delta.toInt, hx, rfl, ?_⟩
    rw [M.apply_of_whole hwhole rfl, Operator.onInts, hdelta]

end Copies

namespace Block

/-! ## Copies of a body -/

theorem binders_mapExprs (f : Expr → Expr) (b : Block) : (b.mapExprs f).binders = b.binders := by
  induction b with
  | seq a b iha ihb => rw [mapExprs, binders, iha, ihb, binders]
  | loop k i body ih => rw [mapExprs, binders, ih, binders]
  | alloc v shape storage body ih => rw [mapExprs, binders, ih, binders]
  | bind bs body ih => rw [mapExprs, binders, ih, binders, List.map_map, Function.comp_def]
  | eval _ | store _ _ _ => rfl

theorem binders_ofList (bs : List Block) : (ofList bs).binders = bs.flatMap binders :=
  collect_ofList rfl (fun _ _ => rfl) bs

/-- An expanded loop is one copy of its body for each point. -/
theorem expand_eq_ok {c : Copies} {b u : Block} (h : c.expand b = .ok u) : ∃ copies,
    u = ofList copies ∧ List.Forall₂ (fun (k : Nat) d => ∃ r, c.offset k = .ok r ∧
      d = b.subst [(c.var, r)]) (List.range c.extent.toInt.toNat) copies := by
  obtain ⟨copies, hcopies, h⟩ := bind_eq_ok_iff.1 h
  refine ⟨copies, (Except.ok.inj h).symm, (forall₂_of_mapM_eq_ok hcopies).imp fun k d hd => ?_⟩
  obtain ⟨r, hr, hd⟩ := bind_eq_ok_iff.1 hd
  exact ⟨r, hr, (Except.ok.inj hd).symm⟩

/-- Several indices are expanded from the last to the first. -/
theorem unroll_cons_eq_ok {i : LoopIndex} {is : List LoopIndex} {body u : Block}
    (h : unroll (i :: is) body = .ok u) :
    ∃ c b, i.copies = .ok c ∧ unroll is body = .ok b ∧ c.expand b = .ok u := by
  obtain ⟨plan, hplan, hu⟩ := bind_eq_ok_iff.1 h
  rw [List.mapM_cons, bind_eq_ok_iff] at hplan
  obtain ⟨c, hc, hplan⟩ := hplan
  obtain ⟨cs, hcs, hplan⟩ := bind_eq_ok_iff.1 hplan
  obtain rfl := Except.ok.inj hplan
  rw [List.foldrM_cons, bind_eq_ok_iff] at hu
  obtain ⟨b, hb, hu⟩ := hu
  exact ⟨c, b, hc, bind_eq_ok_iff.2 ⟨cs, hcs, hb⟩, hu⟩

theorem binders_expand {c : Copies} {b u : Block} (h : c.expand b = .ok u) {v : Var}
    (hv : v ∈ u.binders) : v ∈ b.binders := by
  obtain ⟨copies, rfl, hcopies⟩ := expand_eq_ok h
  rw [binders_ofList, List.mem_flatMap] at hv
  obtain ⟨d, hd, hv⟩ := hv
  obtain ⟨k, r, -, rfl⟩ := forall₂_mem_right hcopies hd
  rwa [subst, binders_mapExprs] at hv

theorem binders_unroll {is : List LoopIndex} {body u : Block} (h : unroll is body = .ok u) :
    ∀ {v : Var}, v ∈ u.binders → v ∈ body.binders := by
  induction is generalizing u with
  | nil =>
    obtain rfl := Except.ok.inj h
    exact id
  | cons i is ih =>
    obtain ⟨c, b, -, hb, hu⟩ := unroll_cons_eq_ok h
    exact fun hv => ih hb (binders_expand hu hv)

/-! ## The loops and the copies -/

section

variable {F : Type} {M : Machine F} {ρ : Env F} {s s' : State F}

/-- One loop: its body may be exchanged for the block that is copied. -/
theorem exec_expand {kind : LoopKind} {i : LoopIndex} {c : Copies} {b d u : Block}
    (hc : i.copies = .ok c) (hu : c.expand d = .ok u) (hp : i.range.first.isPure = true)
    (hd : ∀ v ∈ d.binders, v ≠ i.var ∧ v ∉ i.range.first.vars)
    (hbd : ∀ ρ s s', b.run M ρ s = some s' → d.run M ρ s = some s')
    (h : (loop kind i b).run M ρ s = some s') : u.run M ρ s = some s' := by
  obtain ⟨hvar, hfirst, hextent, hstep⟩ := LoopIndex.copies_eq_ok hc
  obtain ⟨copies, rfl, hcopies⟩ := expand_eq_ok hu
  obtain ⟨ns, log, hns, hint, h⟩ := exec_loop_iff.1 h
  obtain ⟨n, extent, step, l, l', hn, he, hs, rfl⟩ := Range.points_iff.1 hns
  rw [hextent] at he
  rw [hstep] at hs
  obtain ⟨_, hx, hwhole⟩ := Expr.number_iff.1 he
  obtain ⟨rfl, rfl⟩ := Expr.eval_int_iff.1 hx
  obtain rfl := Option.some.inj hwhole
  obtain ⟨_, hx, hwhole⟩ := Expr.number_iff.1 hs
  obtain ⟨rfl, rfl⟩ := Expr.eval_int_iff.1 hx
  obtain rfl := Option.some.inj hwhole
  have hlog : log = s.log := by
    obtain ⟨x, hx, -⟩ := Expr.number_iff.1 hn
    exact Expr.log_eq_of_isPure hp hx
  subst hlog
  rw [List.foldlM_map] at h
  rw [run, exec_ofList]
  refine foldlM_mono hcopies ?_ h
  rintro k _ ⟨r, hr, rfl⟩ t t' ht
  rw [← hfirst] at hp hn hd
  obtain ⟨hrp, hrv⟩ := Copies.isPure_offset hr hp
  have hden := Copies.denotes_offset (M := M) hr hp hn
  rw [hvar, exec_subst hint hrp (fun v hv => ⟨(hd v hv).1, fun h => (hd v hv).2 (hrv v h)⟩) hden]
  exact hbd _ _ _ ht

end

end Block

/-- **Written out, loops over several indices leave the state that they leave when run.** The first
values of the ranges read no memory and call nothing, and the body gives no new value to an index or
to a variable of a first value. -/
theorem unroll_preserves_run {F : Type} (M : Machine F) (kind : LoopKind) {is : List LoopIndex}
    {body u : Block} (hu : Block.unroll is body = .ok u)
    (hp : ∀ i ∈ is, i.range.first.isPure = true)
    (hb : ∀ v ∈ body.binders, ∀ i ∈ is, v ≠ i.var ∧ v ∉ i.range.first.vars) {ρ : Env F}
    {s s' : State F} (h : (Block.nest kind is body).run M ρ s = some s') :
    u.run M ρ s = some s' := by
  induction is generalizing u ρ s s' with
  | nil =>
    obtain rfl := Except.ok.inj hu
    exact h
  | cons i is ih =>
    obtain ⟨c, d, hc, hd, hu⟩ := Block.unroll_cons_eq_ok hu
    obtain ⟨hpi, hpis⟩ := List.forall_mem_cons.1 hp
    have hinner : ∀ ρ s s', (Block.nest kind is body).run M ρ s = some s' →
        d.run M ρ s = some s' := fun ρ s s' h =>
      ih hd hpis (fun v hv j hj => hb v hv j (List.mem_cons_of_mem i hj)) h
    have hbind : ∀ v ∈ d.binders, v ≠ i.var ∧ v ∉ i.range.first.vars := fun v hv =>
      hb v (Block.binders_unroll hd hv) i List.mem_cons_self
    exact Block.exec_expand hc hu hpi hbind hinner h

/-- Two indices, the second of which starts at a variable and goes down. -/
def stairIndices : List LoopIndex :=
  [⟨⟨0, "i", .int32⟩, ⟨.int 1, .int 2, .int 2⟩, ""⟩,
    ⟨⟨1, "j", .int32⟩, ⟨.var ⟨2, "n", .int32⟩, .int 2, .int (-1)⟩, ""⟩]

/-- Under them, an inner loop whose extent is the first index, with a call at each point. -/
def stairBody : Block :=
  let i : Var := ⟨0, "i", .int32⟩
  let j : Var := ⟨1, "j", .int32⟩
  let k : Var := ⟨3, "k", .int32⟩
  .loop .reduce ⟨k, ⟨.int 0, i, .int 1⟩, ""⟩
    (.store ⟨4, "a", .int32⟩ [i, Expr.var j + Expr.var k] (.call .int32 "tick" [j]))

theorem unroll_preserves_run_stair : ∃ u s', Block.unroll stairIndices stairBody = .ok u ∧
    (Block.nest .unroll stairIndices stairBody).run .counting .zero .start = some s' ∧
    u.run .counting .zero .start = some s' ∧ s'.log.length = 8 := by
  obtain ⟨u, hu⟩ : ∃ u, Block.unroll stairIndices stairBody = .ok u := ⟨_, rfl⟩
  have hlog : ((Block.nest .unroll stairIndices stairBody).run .counting .zero .start).map
      (fun s => s.log.length) = some 8 := by
    decide +kernel
  obtain ⟨s', hs', hlen⟩ := Option.map_eq_some_iff.1 hlog
  exact ⟨u, s', hu, hs',
    unroll_preserves_run .counting .unroll hu (by decide) (by decide) hs', hlen⟩

end LoopNest
