import LoopNest.Proofs.Evaluation

/-!
# Running statements

The state that a block leaves, if it runs without error. A loop evaluates its range once and counts
in integers, so its variable must have an integer type. An allocation hides the buffer around it:
its own contents start empty and are gone afterwards. Bindings are evaluated one after another, each
in the scope of those before.

* `Range.points`, `Block.bindAll`, `Block.exec`, `Block.run`;
* `Block.exprs`, `Block.binders`: the expressions of a block, and the variables it gives values;
* **`Block.exec_mapExprs`**: a pass that preserves every expression preserves the run;
* **`Block.exec_unchecked`**: a watched run is a run.
-/

namespace LoopNest

/-! ## Loops over lists -/

section

variable {α β σ τ : Type}

/-- Two loops over matching lists whose steps keep the states related. -/
theorem foldlM_related {Q : α → β → Prop} {R : σ → τ → Prop} {f : σ → α → Option σ}
    {g : τ → β → Option τ} {xs : List α} {ys : List β} (hxy : List.Forall₂ Q xs ys)
    (h : ∀ x y, Q x y → ∀ s t s', R s t → f s x = some s' → ∃ t', g t y = some t' ∧ R s' t') :
    ∀ {s t s'}, R s t → xs.foldlM f s = some s' → ∃ t', ys.foldlM g t = some t' ∧ R s' t' := by
  induction hxy with
  | nil =>
    intro s t s' hst hs
    obtain rfl : s = s' := by simpa using hs
    exact ⟨t, rfl, hst⟩
  | @cons x y xs ys hq _ ih =>
    intro s t s' hst hs
    rw [List.foldlM_cons, Option.bind_eq_bind, Option.bind_eq_some_iff] at hs
    obtain ⟨s₁, hs₁, hs⟩ := hs
    obtain ⟨t₁, ht₁, hst₁⟩ := h x y hq s t s₁ hst hs₁
    obtain ⟨t', ht', hst'⟩ := ih hst₁ hs
    refine ⟨t', ?_, hst'⟩
    rw [List.foldlM_cons, ht₁]
    exact ht'

/-- A loop whose steps give whatever those of another loop give. -/
theorem foldlM_mono {Q : α → β → Prop} {f : σ → α → Option σ} {g : σ → β → Option σ} {xs : List α}
    {ys : List β} (hxy : List.Forall₂ Q xs ys)
    (h : ∀ x y, Q x y → ∀ s s', f s x = some s' → g s y = some s') {s s' : σ}
    (hs : xs.foldlM f s = some s') : ys.foldlM g s = some s' := by
  obtain ⟨t', ht', rfl⟩ := foldlM_related (R := (· = ·)) hxy
    (fun x y hq s t s' hst hs => ⟨s', hst ▸ h x y hq s s' hs, rfl⟩) rfl hs
  exact ht'

theorem forall₂_eq (xs : List α) : List.Forall₂ (· = ·) xs xs :=
  List.forall₂_same.2 fun _ _ => rfl

end

/-! ## Execution -/

section

variable {F : Type} (M : Machine F)

/-- The values that a loop variable takes, in order. -/
def Range.points (w : Bounds) (ρ : Env F) (μ : Memory F) (r : Range) (log : Log F) :
    Option (List Int × Log F) := do
  let (first, log) ← r.first.number M w ρ μ log
  let (extent, log) ← r.extent.number M w ρ μ log
  let (step, log) ← r.step.number M w ρ μ log
  some ((List.range extent.toNat).map fun (k : Nat) => first + k * step, log)

namespace Block

/-- The environment after bindings, and the log. -/
def bindAll (w : Bounds) (μ : Memory F) : List Binding → Env F → Log F → Option (Env F × Log F)
  | [], ρ, log => some (ρ, log)
  | b :: bs, ρ, log => do
    let (x, log) ← b.value.eval M w ρ μ log
    bindAll w μ bs (ρ.set M b.var x) log

/-- The state that a block leaves. -/
def exec : Bounds → Env F → Block → State F → Option (State F)
  | w, ρ, seq a b, s => do
    let s ← a.exec w ρ s
    b.exec w ρ s
  | w, ρ, loop _ i body, s => do
    let (ns, log) ← i.range.points M w ρ s.memory s.log
    if i.var.type.isInt then
      ns.foldlM (fun s n => body.exec w (ρ.set M i.var (.int n)) s) ⟨s.memory, log⟩
    else none
  | w, ρ, alloc v shape _ body, s => do
    let (dims, log) ← Expr.numbers M w ρ s.memory shape s.log
    let t ← body.exec (w.enter v dims) ρ ⟨s.memory.clear v, log⟩
    some ⟨t.memory.restore v s.memory, t.log⟩
  | w, ρ, bind bs body, s => do
    let (ρ, log) ← bindAll M w s.memory bs ρ s.log
    body.exec w ρ ⟨s.memory, log⟩
  | w, ρ, eval e, s => do
    let (_, log) ← e.eval M w ρ s.memory s.log
    some ⟨s.memory, log⟩
  | w, ρ, store v is e, s => do
    let (c, log) ← Expr.numbers M w ρ s.memory is s.log
    let (x, log) ← e.eval M w ρ s.memory log
    let μ ← w.write M s.memory v c x
    some ⟨μ, log⟩

/-- The state that a block leaves where no access is watched. -/
def run (ρ : Env F) (b : Block) (s : State F) : Option (State F) := b.exec M .unchecked ρ s

end Block

end

namespace Block

/-- The expressions of a block, in order of appearance. -/
def exprs : Block → List Expr
  | seq a b => a.exprs ++ b.exprs
  | loop _ i body => i.range.first :: i.range.extent :: i.range.step :: body.exprs
  | alloc _ shape _ body => shape ++ body.exprs
  | bind bs body => bs.map Binding.value ++ body.exprs
  | eval e => [e]
  | store _ is e => is ++ [e]

/-- The variables that a block gives values, by loops and bindings. -/
def binders : Block → List Var
  | seq a b => a.binders ++ b.binders
  | loop _ i body => i.var :: body.binders
  | alloc _ _ _ body => body.binders
  | bind bs body => bs.map Binding.var ++ body.binders
  | eval _ | store _ _ _ => []

/-! ## What a run is made of -/

section

variable {F : Type} {M : Machine F} {w : Bounds} {ρ : Env F} {s s' : State F}

theorem exec_seq_iff {a b : Block} : (seq a b).exec M w ρ s = some s' ↔
    ∃ t, a.exec M w ρ s = some t ∧ b.exec M w ρ t = some s' := by
  simp only [exec, Option.bind_eq_bind, Option.bind_eq_some_iff]

theorem exec_loop_iff {k : LoopKind} {i : LoopIndex} {body : Block} :
    (loop k i body).exec M w ρ s = some s' ↔ ∃ ns log,
      i.range.points M w ρ s.memory s.log = some (ns, log) ∧ i.var.type.isInt = true ∧
      ns.foldlM (fun s n => body.exec M w (ρ.set M i.var (.int n)) s) ⟨s.memory, log⟩ =
        some s' := by
  simp only [exec, Option.bind_eq_bind, Option.bind_eq_some_iff, Prod.exists]
  refine exists_congr fun ns => exists_congr fun log => and_congr_right fun _ => ?_
  split <;> simp_all

theorem exec_alloc_iff {v : Var} {shape : List Expr} {storage : String} {body : Block} :
    (alloc v shape storage body).exec M w ρ s = some s' ↔ ∃ dims log t,
      Expr.numbers M w ρ s.memory shape s.log = some (dims, log) ∧
      body.exec M (w.enter v dims) ρ ⟨s.memory.clear v, log⟩ = some t ∧
      s' = ⟨t.memory.restore v s.memory, t.log⟩ := by
  simp only [exec, Option.bind_eq_bind, Option.bind_eq_some_iff, Prod.exists, Option.some.injEq,
    eq_comm (a := s')]
  constructor
  · rintro ⟨dims, log, hd, t, ht, rfl⟩
    exact ⟨dims, log, t, hd, ht, rfl⟩
  · rintro ⟨dims, log, t, hd, ht, rfl⟩
    exact ⟨dims, log, hd, t, ht, rfl⟩

theorem exec_bind_iff {bs : List Binding} {body : Block} :
    (bind bs body).exec M w ρ s = some s' ↔ ∃ ρ' log,
      bindAll M w s.memory bs ρ s.log = some (ρ', log) ∧
      body.exec M w ρ' ⟨s.memory, log⟩ = some s' := by
  simp only [exec, Option.bind_eq_bind, Option.bind_eq_some_iff, Prod.exists]

theorem exec_eval_iff {e : Expr} : (eval e).exec M w ρ s = some s' ↔
    ∃ x log, e.eval M w ρ s.memory s.log = some (x, log) ∧ s' = ⟨s.memory, log⟩ := by
  simp only [exec, Option.bind_eq_bind, Option.bind_eq_some_iff, Prod.exists, Option.some.injEq,
    eq_comm (a := s')]

theorem exec_store_iff {v : Var} {is : List Expr} {e : Expr} :
    (store v is e).exec M w ρ s = some s' ↔ ∃ c l x log,
      Expr.numbers M w ρ s.memory is s.log = some (c, l) ∧
      e.eval M w ρ s.memory l = some (x, log) ∧ w.admits v c = true ∧
      s' = ⟨s.memory.store M v c x, log⟩ := by
  simp only [exec, Option.bind_eq_bind, Option.bind_eq_some_iff, Prod.exists, Option.some.injEq,
    Bounds.write_eq_some_iff, eq_comm (a := s')]
  constructor
  · rintro ⟨c, l, hc, x, log, hx, _, ⟨hw, rfl⟩, rfl⟩
    exact ⟨c, l, x, log, hc, hx, hw, rfl⟩
  · rintro ⟨c, l, x, log, hc, hx, hw, rfl⟩
    exact ⟨c, l, hc, x, log, hx, _, ⟨hw, rfl⟩, rfl⟩

theorem bindAll_cons_iff {μ : Memory F} {b : Binding} {bs : List Binding} {log : Log F}
    {r : Env F × Log F} : bindAll M w μ (b :: bs) ρ log = some r ↔ ∃ x l,
      b.value.eval M w ρ μ log = some (x, l) ∧ bindAll M w μ bs (ρ.set M b.var x) l = some r := by
  simp only [bindAll, Option.bind_eq_bind, Option.bind_eq_some_iff, Prod.exists]

/-- **A sequence runs its parts in order.** -/
theorem exec_ofList (bs : List Block) (s : State F) :
    (ofList bs).exec M w ρ s = bs.foldlM (fun s b => b.exec M w ρ s) s := by
  induction bs generalizing s with
  | nil => rfl
  | cons b bs ih =>
    cases bs with
    | nil => simp [ofList]
    | cons c cs =>
      rw [ofList_cons_cons, List.foldlM_cons, exec]
      simp only [ih]

end

end Block

theorem Range.points_iff {F : Type} {M : Machine F} {w : Bounds} {ρ : Env F} {μ : Memory F}
    {r : Range} {log log' : Log F} {ns : List Int} :
    r.points M w ρ μ log = some (ns, log') ↔ ∃ first extent step l l',
      r.first.number M w ρ μ log = some (first, l) ∧ r.extent.number M w ρ μ l = some (extent, l') ∧
      r.step.number M w ρ μ l' = some (step, log') ∧
      ns = (List.range extent.toNat).map fun (k : Nat) => first + k * step := by
  simp only [points, Option.bind_eq_bind, Option.bind_eq_some_iff, Prod.exists, Option.some.injEq,
    Prod.mk.injEq]
  constructor
  · rintro ⟨first, l, hf, extent, l', he, step, _, hs, rfl, rfl⟩
    exact ⟨first, extent, step, l, l', hf, he, hs, rfl⟩
  · rintro ⟨first, extent, step, l, l', hf, he, hs, rfl⟩
    exact ⟨first, l, hf, extent, l', he, step, log', hs, rfl, rfl⟩

/-! ## Passes over expressions -/

section

variable {F : Type} {M : Machine F}

theorem Refines.points {w w' : Bounds} {ρ ρ' : Env F} {μ μ' : Memory F} {r r' : Range}
    (hf : Refines (r.first.eval M w ρ μ) (r'.first.eval M w' ρ' μ'))
    (he : Refines (r.extent.eval M w ρ μ) (r'.extent.eval M w' ρ' μ'))
    (hs : Refines (r.step.eval M w ρ μ) (r'.step.eval M w' ρ' μ')) :
    Refines (r.points M w ρ μ) (r'.points M w' ρ' μ') := by
  rintro log ⟨ns, log'⟩ h
  obtain ⟨first, extent, step, l, l', h₁, h₂, h₃, rfl⟩ := Range.points_iff.1 h
  have h₁ := hf.number _ _ h₁
  have h₂ := he.number _ _ h₂
  have h₃ := hs.number _ _ h₃
  exact Range.points_iff.2 ⟨first, extent, step, l, l', h₁, h₂, h₃, rfl⟩

/-- What a pass must do to an expression: it evaluates as before, also where nothing is watched. -/
def Preserves (M : Machine F) (f : Expr → Expr) (e : Expr) : Prop :=
  ∀ w ρ μ, Refines (e.eval M w ρ μ) ((f e).eval M .unchecked ρ μ)

theorem Preserves.numbers {f : Expr → Expr} {es : List Expr} (h : ∀ e ∈ es, Preserves M f e)
    (w : Bounds) (ρ : Env F) (μ : Memory F) :
    Refines (Expr.numbers M w ρ μ es) (Expr.numbers M .unchecked ρ μ (es.map f)) :=
  (Refines.all fun e he => h e he w ρ μ).numbers

namespace Block

theorem bindAll_map {f : Expr → Expr} {bs : List Binding}
    (h : ∀ b ∈ bs, Preserves M f b.value) {w : Bounds} {μ : Memory F} {ρ : Env F} {log : Log F}
    {r : Env F × Log F} (hr : bindAll M w μ bs ρ log = some r) :
    bindAll M .unchecked μ (bs.map fun b => { b with value := f b.value }) ρ log = some r := by
  induction bs generalizing ρ log with
  | nil => exact hr
  | cons b bs ih =>
    obtain ⟨hb, hbs⟩ := List.forall_mem_cons.1 h
    obtain ⟨x, l, hx, hr⟩ := bindAll_cons_iff.1 hr
    have hx := hb w ρ μ _ _ hx
    have hr := ih hbs hr
    exact bindAll_cons_iff.2 ⟨x, l, hx, hr⟩

/-- **A pass that preserves every expression of a block preserves its run.** -/
theorem exec_mapExprs {f : Expr → Expr} : ∀ {b : Block}, (∀ e ∈ b.exprs, Preserves M f e) →
    ∀ {w : Bounds} {ρ : Env F} {s s' : State F}, b.exec M w ρ s = some s' →
      (b.mapExprs f).exec M .unchecked ρ s = some s'
  | seq a b, h, w, ρ, s, s', hs => by
    simp only [exprs, List.mem_append] at h
    obtain ⟨t, ha, hb⟩ := exec_seq_iff.1 hs
    have ha := exec_mapExprs (fun e he => h e (.inl he)) ha
    have hb := exec_mapExprs (fun e he => h e (.inr he)) hb
    exact exec_seq_iff.2 ⟨t, ha, hb⟩
  | loop k i body, h, w, ρ, s, s', hs => by
    simp only [exprs, List.mem_cons, forall_eq_or_imp] at h
    obtain ⟨hf, he, hst, hbody⟩ := h
    obtain ⟨ns, log, hns, hi, hs⟩ := exec_loop_iff.1 hs
    have hpoints : Refines (i.range.points M w ρ s.memory)
        ((i.range.mapExprs f).points M .unchecked ρ s.memory) :=
      Refines.points (hf w ρ s.memory) (he w ρ s.memory) (hst w ρ s.memory)
    have hs := foldlM_mono (forall₂_eq ns) (fun n _ hn t t' ht => hn ▸ exec_mapExprs hbody ht) hs
    exact exec_loop_iff.2 ⟨ns, log, hpoints _ _ hns, hi, hs⟩
  | alloc v shape storage body, h, w, ρ, s, s', hs => by
    simp only [exprs, List.mem_append] at h
    obtain ⟨dims, log, t, hd, ht, rfl⟩ := exec_alloc_iff.1 hs
    have hd := Preserves.numbers (fun e he => h e (.inl he)) w ρ s.memory _ _ hd
    have ht := exec_mapExprs (fun e he => h e (.inr he)) ht
    refine exec_alloc_iff.2 ⟨dims, log, t, hd, ?_, rfl⟩
    rw [Bounds.enter_unchecked]
    exact ht
  | bind bs body, h, w, ρ, s, s', hs => by
    simp only [exprs, List.mem_append, List.mem_map] at h
    obtain ⟨ρ', log, hbs, hs⟩ := exec_bind_iff.1 hs
    have hbs := bindAll_map (fun b hb => h _ (.inl ⟨b, hb, rfl⟩)) hbs
    have hs := exec_mapExprs (fun e he => h e (.inr he)) hs
    exact exec_bind_iff.2 ⟨ρ', log, hbs, hs⟩
  | eval e, h, w, ρ, s, s', hs => by
    obtain ⟨x, log, hx, rfl⟩ := exec_eval_iff.1 hs
    have hx := h e (by simp [exprs]) w ρ s.memory _ _ hx
    exact exec_eval_iff.2 ⟨x, log, hx, rfl⟩
  | store v is e, h, w, ρ, s, s', hs => by
    simp only [exprs, List.mem_append, List.mem_singleton] at h
    obtain ⟨c, l, x, log, hc, hx, -, rfl⟩ := exec_store_iff.1 hs
    have hc := Preserves.numbers (fun e he => h e (.inl he)) w ρ s.memory _ _ hc
    have hx := h e (.inr rfl) w ρ s.memory _ _ hx
    exact exec_store_iff.2 ⟨c, l, x, log, hc, hx, rfl, rfl⟩

theorem mapExprs_id (b : Block) : b.mapExprs id = b := by
  induction b with
  | seq a b iha ihb => rw [mapExprs, iha, ihb]
  | loop k i body ih =>
    rw [mapExprs, ih]
    rfl
  | alloc v shape storage body ih => rw [mapExprs, ih, List.map_id]
  | bind bs body ih =>
    rw [mapExprs, ih]
    simp
  | eval e => rfl
  | store v is e => rw [mapExprs, List.map_id, id]

/-- **A watched run is a run.** -/
theorem exec_unchecked {b : Block} {w : Bounds} {ρ : Env F} {s s' : State F}
    (h : b.exec M w ρ s = some s') : b.run M ρ s = some s' := by
  have hrun := exec_mapExprs (f := id) (fun e _ w ρ μ => e.eval_unchecked w ρ μ) h
  rwa [mapExprs_id] at hrun

end Block

end

end LoopNest
