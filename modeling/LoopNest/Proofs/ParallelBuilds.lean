import LoopNest.Proofs.Completeness
import LoopNest.Proofs.Enumeration
import LoopNest.Proofs.Handles
import LoopNest.Proofs.RenamedSource
import Mathlib.Data.List.GetD

/-!
# Builds in parallel

Builds that run side by side share nothing but the counter that numbers variables. Which numbers a
build gets hangs on whose turn it was at the counter; but they are different numbers, so its trace
is that of the build alone over relabelled variables, and its source is the same.

* `Step`, `Job`: a build as data, its own variables numbered as if it ran alone;
* `Operation.performAs`, `Job.recordAs`: recording with the numbers that the counter gave;
* `turnsOf`, `numbering`, `buildAll`: the numbers of a build, and all builds;
* **`Operation.relabel_perform`**, **`Job.relabel_record`**: one operation, and a whole recording;
* **`pipeline_relabel`**: traces over other variables, and builds in parallel.
-/

namespace LoopNest

/-! ## Numbers from a counter -/

/-- The numbers that a counter gives to one of several builds. It counts on from `base`, and each
number goes to the build whose turn it is. -/
def turnsOf (base : Nat) (turns : List Nat) (build : Nat) : List Nat :=
  ((turns.zipIdx base).filter fun p => p.1 = build).map Prod.snd

/-- The number of the variable that a build which runs alone from `base` on would number `id`.
Variables that were there before keep their numbers. A build that draws more often than it has turns
is alone after all of them. -/
def numbering (base : Nat) (turns : List Nat) (build id : Nat) : Nat :=
  if id < base then id
  else (turnsOf base turns build).getD (id - base) (turns.length + id)

theorem mem_turnsOf {base : Nat} {turns : List Nat} {build n : Nat}
    (h : n ∈ turnsOf base turns build) : base ≤ n ∧ n < base + turns.length := by
  obtain ⟨p, hp, rfl⟩ := List.mem_map.1 h
  obtain ⟨hle, hlt, -⟩ := List.mem_zipIdx (List.mem_filter.1 hp).1
  exact ⟨hle, by omega⟩

theorem nodup_turnsOf (base : Nat) (turns : List Nat) (build : Nat) :
    (turnsOf base turns build).Nodup := by
  have hall : ((turns.zipIdx base).map Prod.snd).Nodup := by
    rw [List.zipIdx_map_snd]
    exact List.nodup_range'
  exact hall.sublist (List.filter_sublist.map Prod.snd)

/-- **A build gets every number once**, and none that was there before. -/
theorem numbering_injective (base : Nat) (turns : List Nat) (build : Nat) :
    Function.Injective (numbering base turns build) := by
  let given := turnsOf base turns build
  -- a variable from before, one that was drawn in a turn, or one that was drawn after all of them
  have hcases : ∀ id, (id < base ∧ numbering base turns build id = id) ∨
      (∃ h : id - base < given.length, base ≤ id ∧
        numbering base turns build id = given[id - base] ∧ base ≤ given[id - base] ∧
        given[id - base] < base + turns.length) ∨
      (base ≤ id ∧ numbering base turns build id = turns.length + id) := by
    intro id
    by_cases hold : id < base
    · exact .inl ⟨hold, if_pos hold⟩
    · by_cases hturn : id - base < given.length
      · refine .inr (.inl ⟨hturn, by omega, ?_, mem_turnsOf (List.getElem_mem hturn)⟩)
        rw [numbering, if_neg hold, List.getD_eq_getElem _ _ hturn]
      · refine .inr (.inr ⟨by omega, ?_⟩)
        rw [numbering, if_neg hold, List.getD_eq_default _ _ (not_lt.1 hturn)]
  intro i j hij
  rcases hcases i with ⟨hi, hei⟩ | ⟨hi, hbi, hei, hi1, hi2⟩ | ⟨hi, hei⟩ <;>
    rcases hcases j with ⟨hj, hej⟩ | ⟨hj, hbj, hej, hj1, hj2⟩ | ⟨hj, hej⟩ <;>
    rw [hei, hej] at hij
  case inr.inl.inr.inl =>
    have := (nodup_turnsOf base turns build).getElem_inj_iff.1 hij
    omega
  all_goals omega

/-! ## Recording with given numbers -/

/-- An operation over other variables. -/
def Operation.relabel (r : Relabelling) : Operation → Operation
  | newVar type name => newVar type name
  | bindView view => bindView (view.relabel r)
  | allocate shape storage type name => allocate (shape.map (Expr.relabel r)) storage type name
  | enterAlloc shape storage type name => enterAlloc (shape.map (Expr.relabel r)) storage type name
  | enterLoop kind decl => enterLoop kind (decl.relabel r)
  | letVar name value => letVar name (value.relabel r)
  | store target selectors value =>
    store (target.relabel r) (selectors.map (Selector.relabel r)) (value.relabel r)
  | call type name args => call type name (args.map (Expr.relabel r))
  | evaluate value => evaluate (value.relabel r)
  | fill target value => fill (target.relabel r) (value.relabel r)
  | load source => load (source.relabel r)

/-- An operation of a build whose variable number `n` gets the number `f n` from the counter. Each
index of a loop draws its number on its own; any other operation draws one at most. -/
def Operation.performAs (f : Nat → Nat) (t : Trace) : Operation → Except Error Trace
  | enterLoop kind decl => do
    let parts ← decl.check
    let index (p : (String × Range × String) × Nat) : LoopIndex :=
      ⟨⟨f p.2, p.1.1, .int32⟩, p.1.2.1, p.1.2.2⟩
    return { t with
      fresh := t.fresh + parts.length
      tree := t.tree.enter (.loop kind ((parts.zipIdx t.fresh).map index)) false }
  | o => do
    let (_, u) ← o.perform { t with fresh := f t.fresh }
    return { u with fresh := t.fresh + (u.fresh - f t.fresh) }

/-- A step of a build: an operation, the end of a scope, or the end of the build with an error. -/
inductive Step where
  | perform (operation : Operation)
  | leave (scope : OpenScope)
  | stop (error : Error)

namespace Step

/-- The trace after a step of a build that runs alone. -/
def run (t : Trace) : Step → Except Error Trace
  | perform o => (o.perform t).map Prod.snd
  | leave h => t.leave h
  | stop e => .error e

/-- The trace after a step with given numbers. -/
def runAs (f : Nat → Nat) (t : Trace) : Step → Except Error Trace
  | perform o => o.performAs f t
  | leave h => t.leave h
  | stop e => .error e

/-- A step over other variables. -/
def relabel (r : Relabelling) : Step → Step
  | perform o => perform (o.relabel r)
  | leave h => leave h
  | stop e => stop (e.relabel r)

end Step

/-- A kernel to be built: its parameters, and the steps of the program that records its body. -/
structure Job where
  signature : Signature
  options : Options
  steps : List Step

namespace Job

/-- The definition of a kernel that is built alone, its own variables numbered from `base` on. -/
def definition (base : Nat) (j : Job) : Definition Id where
  fresh := base
  signature := j.signature
  options := j.options
  body _ _ := forM j.steps fun s => Tracing.act fun t => s.run t

/-- A job over other variables. -/
def relabel (r : Relabelling) (j : Job) : Job :=
  ⟨j.signature.relabel r, j.options, j.steps.map (Step.relabel r)⟩

/-- Record a job with given numbers. -/
def recordAs (f : Nat → Nat) (base : Nat) (j : Job) : Except Error Trace :=
  j.steps.foldlM (fun t s => s.runAs f t) (j.definition base).start

/-- Build a job with given numbers. -/
def buildAs (target : String) (f : Nat → Nat) (base : Nat) (j : Job) : Except Error Kernel := do
  let target ← Target.named target
  let t ← j.recordAs f base
  (← t.kernel j.signature j.options).emitted target

end Job

/-- Build jobs side by side, while a counter that all of them use goes on from `base`. Each job
mentions its variables by the numbers that it drew. -/
def buildAll (target : String) (base : Nat) (turns : List Nat) (jobs : List Job) :
    List (Except Error Kernel) :=
  jobs.mapIdx fun build j =>
    let f := numbering base turns build
    (j.relabel (.ofIds f (numbering_injective base turns build))).buildAs target f base

section

variable {f : Nat → Nat} (hf : Function.Injective f)

/-- The indices of a loop scope, each with the number that it drew. -/
theorem Script.relabel_indices (n : Nat) (parts : List (String × Range × String)) :
    (indices n parts).map (LoopIndex.relabel (.ofIds f hf)) =
      ((parts.map fun p => (p.1, p.2.1.relabel (.ofIds f hf), p.2.2)).zipIdx n).map fun p =>
        ⟨⟨f p.2, p.1.1, .int32⟩, p.1.2.1, p.1.2.2⟩ := by
  induction parts generalizing n with
  | nil => rfl
  | cons p parts ih => exact congrArg (List.cons _) (ih (n + 1))

/-- **One operation**: what it records with given numbers. -/
theorem Operation.relabel_perform (t : Trace) (o : Operation) :
    (o.relabel (.ofIds f hf)).performAs f (t.relabel (.ofIds f hf)) =
      exchange (Error.relabel (.ofIds f hf)) (Trace.relabel (.ofIds f hf))
        ((o.perform t).map Prod.snd) := by
  have hone : ∀ n, n + 1 - n = 1 := fun n => Nat.add_sub_cancel_left n 1
  have henter := t.tree.relabel_enter (.ofIds f hf)
  have hadd : ∀ b : Block, (t.tree.relabel (.ofIds f hf)).addStatement (b.relabel (.ofIds f hf)) =
      (t.tree.addStatement b).relabel (.ofIds f hf) :=
    fun b => t.tree.relabel_addChild (.ofIds f hf) (.statement b) false
  cases o with
  | newVar type name =>
    change Except.ok _ = Except.ok _
    simp only [Trace.newVar, Trace.relabel, hone]
  | bindView view =>
    change Except.ok _ = Except.ok _
    simp only [Trace.bindView, Trace.relabel, List.map_cons, Nat.sub_self, Nat.add_zero]
  | allocate shape storage type name =>
    have htree := henter (.alloc ⟨t.fresh, name, type⟩ shape storage) true
    change Except.ok _ = Except.ok _
    simp only [Trace.allocate, Trace.addAlloc, Trace.newVar, Trace.bindView, Trace.relabel, hone]
    exact congrArg (fun tree => Except.ok (Trace.mk _ tree _)) htree
  | enterAlloc shape storage type name =>
    have htree := henter (.alloc ⟨t.fresh, name, type⟩ shape storage) false
    change Except.ok _ = Except.ok _
    simp only [Trace.bindView, Trace.relabel, hone]
    exact congrArg (fun tree => Except.ok (Trace.mk _ tree _)) htree
  | letVar name value =>
    have htree := henter (.bind [⟨⟨t.fresh, name, value.type⟩, value⟩]) true
    change Except.ok _ = Except.ok _
    simp only [Trace.letVar, Trace.newVar, Trace.relabel, Expr.type_relabel, hone]
    exact congrArg (fun tree => Except.ok (Trace.mk _ tree _)) htree
  | enterLoop kind decl =>
    rw [relabel, performAs, LoopDecl.relabel_check, perform]
    cases hparts : decl.check with
    | error e =>
      rw [Trace.enterLoop, hparts]
      rfl
    | ok parts =>
      have htree := henter (.loop kind (Script.indices t.fresh parts)) false
      rw [ScopeForm.relabel, Script.relabel_indices hf] at htree
      rw [Script.enterLoop_eq hparts, exchange_ok]
      change Except.ok _ = Except.ok _
      rw [List.length_map]
      exact congrArg (fun tree => Except.ok (Trace.mk _ tree _)) htree
  | store target selectors value =>
    have hselect := View.relabel_select (.ofIds f hf) target selectors
    rw [relabel, performAs, perform, perform, Trace.store, Trace.store, hselect]
    · cases target.select selectors with
      | error e => rfl
      | ok s =>
        cases s with
        | view v => rfl
        | element b is =>
          change Except.ok _ = Except.ok _
          simp only [Trace.add, Trace.relabel, Nat.sub_self, Nat.add_zero]
          exact congrArg (fun tree => Except.ok (Trace.mk _ tree _)) (hadd (.store b is value))
    · intro _ _ h
      cases h
  | call type name args =>
    have htree := hadd (.eval (.call type name args))
    rw [Block.relabel, Expr.relabel_call] at htree
    change Except.ok _ = Except.ok _
    simp only [Trace.call, Trace.add, Trace.relabel, Nat.sub_self, Nat.add_zero]
    exact congrArg (fun tree => Except.ok (Trace.mk _ tree _)) htree
  | evaluate value =>
    have htree := hadd (.eval value)
    change Except.ok _ = Except.ok _
    simp only [Trace.evaluate, Trace.add, Trace.relabel, Nat.sub_self, Nat.add_zero]
    exact congrArg (fun tree => Except.ok (Trace.mk _ tree _)) htree
  | fill target value =>
    have hbuffer := View.buffer_relabel (.ofIds f hf) target
    change Except.error _ = Except.error _
    rw [hbuffer]
    rfl
  | load source =>
    have hbuffer := View.buffer_relabel (.ofIds f hf) source
    have hrank := View.rank_relabel (.ofIds f hf) source
    change Except.error _ = Except.error _
    rw [hbuffer, hrank]
    rfl

theorem Step.relabel_run (t : Trace) (s : Step) :
    (s.relabel (.ofIds f hf)).runAs f (t.relabel (.ofIds f hf)) =
      exchange (Error.relabel (.ofIds f hf)) (Trace.relabel (.ofIds f hf)) (s.run t) := by
  cases s with
  | perform o => exact o.relabel_perform hf t
  | leave h =>
    exact exchange_bind (ScopeTree.relabel_close (.ofIds f hf) t.tree h.id) fun _ => rfl
  | stop e => rfl

theorem Definition.relabel_start (r : Relabelling) (base : Nat) (j : Job) :
    ((j.relabel r).definition base).start = ((j.definition base).start).relabel r := by
  have hbind : ∀ (views : List View) (t : Trace), (views.map (View.relabel r)).foldl
      Trace.bindView (t.relabel r) = (views.foldl Trace.bindView t).relabel r := by
    intro views
    induction views with
    | nil => exact fun t => rfl
    | cons v views ih => exact fun t => ih (t.bindView v)
  have hempty : ScopeTree.empty.relabel r = .empty := by
    simp [ScopeTree.relabel, ScopeTree.empty, ScopeEntry.relabel, ScopeForm.relabel]
  have hviews := Signature.views_relabel r j.signature
  have hstart : (Trace.start base).relabel r = .start base :=
    congrArg (fun tree => Trace.mk base tree []) hempty
  have h := hbind j.signature.views (.start base)
  rw [← hviews, hstart] at h
  exact h

/-- **A whole recording**: the steps of a job with given numbers. -/
theorem Job.relabel_record (base : Nat) (j : Job) :
    (j.relabel (.ofIds f hf)).recordAs f base =
      exchange (Error.relabel (.ofIds f hf)) (Trace.relabel (.ofIds f hf))
        (j.steps.foldlM Step.run (j.definition base).start) := by
  have hsteps : ∀ (steps : List Step) (t : Trace),
      (steps.map (Step.relabel (.ofIds f hf))).foldlM (fun t s => s.runAs f t)
        (t.relabel (.ofIds f hf)) = exchange (Error.relabel (.ofIds f hf))
          (Trace.relabel (.ofIds f hf)) (steps.foldlM Step.run t) := by
    intro steps
    induction steps with
    | nil => exact fun t => rfl
    | cons s steps ih =>
      intro t
      rw [List.map_cons, List.foldlM_cons, List.foldlM_cons]
      exact exchange_bind (s.relabel_run hf t) ih
  rw [recordAs, Definition.relabel_start]
  exact hsteps j.steps _

end

/-! ## A build alone -/

/-- Lowering a definition is recording its body and finishing the trace. -/
theorem Definition.lower_eq_kernel (d : Definition Id) :
    d.lower = d.recorded.1 >>= fun _ => d.recorded.2.kernel d.signature d.options := rfl

namespace Job

/-- What the steps of a job record alone is what its program leaves. -/
theorem run_steps (steps : List Step) (t : Trace) : ∃ u,
    (forM steps fun s => Tracing.act fun t => s.run t : Tracing Id Unit).run t =
      ((steps.foldlM Step.run t).map fun _ => (), u) ∧
    ∀ w, steps.foldlM Step.run t = .ok w → u = w := by
  induction steps generalizing t with
  | nil => exact ⟨t, rfl, fun w hw => Except.ok.inj hw⟩
  | cons s steps ih =>
    rw [List.forM_cons, List.foldlM_cons]
    cases hs : s.run t with
    | ok v =>
      rw [Tracing.run_bind_of_ok (Tracing.run_act_of_ok hs)]
      exact ih v
    | error e =>
      exact ⟨t, Tracing.run_bind_of_error (Tracing.run_act_of_error hs) _, fun w hw => nomatch hw⟩

/-- Building alone is recording the steps, finishing the trace and emitting the kernel. -/
theorem build_eq (target : String) (base : Nat) (j : Job) :
    (j.definition base).build target = (do
      let target ← Target.named target
      let t ← j.steps.foldlM Step.run (j.definition base).start
      (← t.kernel j.signature j.options).emitted target : Except Error Kernel) := by
  obtain ⟨u, hrun, hu⟩ := run_steps j.steps (j.definition base).start
  rw [Definition.build]
  cases Target.named target with
  | error e => rfl
  | ok target =>
    have hlower : (j.definition base).lower =
        (j.steps.foldlM Step.run (j.definition base).start >>= fun t =>
          t.kernel j.signature j.options) := by
      have hrecorded : (j.definition base).recorded = _ := hrun
      rw [Definition.lower_eq_kernel, hrecorded]
      cases hsteps : j.steps.foldlM Step.run (j.definition base).start with
      | error e => rfl
      | ok w => rw [hu w hsteps]; rfl
    change Except.bind (j.definition base).lower (Kernel.emitted target) = _
    rw [hlower]
    exact bind_assoc (m := Except Error) _ _ _

/-- **A build with given numbers gives the kernel over these numbers, with the same source.** -/
theorem relabel_build (target : String) {f : Nat → Nat} (hf : Function.Injective f) (base : Nat)
    (j : Job) : (j.relabel (.ofIds f hf)).buildAs target f base =
      exchange (Error.relabel (.ofIds f hf)) (Kernel.relabel (.ofIds f hf))
        ((j.definition base).build target) := by
  rw [build_eq]
  refine exchange_bind (f := id) ?_ fun target => exchange_bind (j.relabel_record hf base)
    fun t => exchange_bind (t.relabel_kernel (.ofIds f hf) j.signature j.options) fun k =>
      exchange_bind (Target.emitFunction_relabel (.ofIds f hf) target k.signature k.body)
        fun s => rfl
  rw [Target.named]
  cases Target.named? target <;> rfl

end Job

/-- The source of a kernel, or the kind of the error. -/
def sourceOf : Except Error Kernel → Except ErrorKind (Option String) :=
  exchange Error.kind Kernel.source

theorem sourceOf_buildAll (target : String) (base : Nat) (turns : List Nat) (jobs : List Job) :
    (buildAll target base turns jobs).map sourceOf =
      jobs.map fun j => sourceOf ((j.definition base).build target) := by
  have hsource : ∀ (r : Relabelling) (x : Except Error Kernel),
      sourceOf (exchange (Error.relabel r) (Kernel.relabel r) x) = sourceOf x := by
    intro r x
    cases x with
    | ok k => rfl
    | error e => exact congrArg Except.error (Error.kind_relabel r e)
  refine List.ext_getElem? fun i => ?_
  rw [List.getElem?_map, List.getElem?_map, buildAll, List.getElem?_mapIdx, Option.map_map]
  refine Option.map_congr fun j _ => ?_
  simp only [Function.comp_apply, Job.relabel_build, hsource]

/-- **The numbers of variables do not matter.** Take any trace, parameters and options, and any
relabelling, applied to the parameters with their shapes and to all that the trace records. The
relabelled trace is lowered, flattened and folded to the relabelled kernel exactly if the original
is to a kernel; else both fail with errors of one kind. Statements and kernel functions are emitted
to the same text for every target, or refused alike; and a kernel whose variables all have names is
printed the same and has the same hash. Therefore builds in parallel, however their turns at the
counter come, give for each job the source that it gives alone, or an error of the same kind. -/
theorem pipeline_relabel (r : Relabelling) (t : Trace) (g : Signature) (o : Options) :
    (t.relabel r).kernel (g.relabel r) o =
        exchange (Error.relabel r) (Kernel.relabel r) (t.kernel g o) ∧
      (∀ e : Error, (e.relabel r).kind = e.kind) ∧
      (∀ (target : Target) (b : Block),
        target.emit (b.relabel r) = exchange (Error.relabel r) id (target.emit b) ∧
        target.emitFunction (g.relabel r) (b.relabel r) =
          exchange (Error.relabel r) id (target.emitFunction g b)) ∧
      (∀ k : Kernel, (∀ v ∈ k.vars, v.name ≠ "") →
        (k.relabel r).body.text = k.body.text ∧ (k.relabel r).hash = k.hash) ∧
      ∀ (target : String) (base : Nat) (turns : List Nat) (jobs : List Job),
        (buildAll target base turns jobs).map sourceOf =
          jobs.map fun j => sourceOf ((j.definition base).build target) := by
  refine ⟨t.relabel_kernel r g o, Error.kind_relabel r, fun target b => ?_, fun k hk => ?_,
    sourceOf_buildAll⟩
  · exact ⟨target.emit_relabel r b, target.emitFunction_relabel r g b⟩
  · have hbody : ∀ v ∈ k.body.vars, v.name ≠ "" :=
      fun v hv => hk v (List.mem_append_right _ hv)
    exact ⟨Block.text_relabel r hbody, congrArg Blake3.hexDigest (Kernel.identity_relabel r hk)⟩

/-- A loop over two indices with an array inside. -/
def tileJob : Job :=
  let n : Var := ⟨0, "n", .int32⟩
  let out : Var := ⟨1, "out", .float32⟩
  let i : Var := ⟨2, "i", .int32⟩
  let j : Var := ⟨3, "j", .int32⟩
  let t : Var := ⟨4, "t", .float32⟩
  { signature := ⟨"tile", [⟨out, [n, .int 4]⟩], [n]⟩
    options := .standard
    steps := [
      .perform (.enterLoop .spatial
        ⟨some ["i", "j"], some [⟨.int 0, n, .int 1⟩, .upTo 0 4], none⟩),
      .perform (.allocate [.int 2, .int 2] "local" .float32 "t"),
      .perform (.store (.root t [.int 2, .int 2] "local") [.at (.int 1), .at (.int 0)] i),
      .perform (.store (.root out [n, .int 4] "global") [.at i, .at j] (.load t [.int 1, .int 0])),
      .leave ⟨1⟩] }

theorem pipeline_relabel_tile : ∃ k s, (tileJob.definition 2).build "c" = .ok k ∧
    k.source = some s ∧ (buildAll "c" 2 [1, 0, 0, 1, 0] [tileJob, tileJob]).map sourceOf =
      [.ok (some s), .ok (some s)] ∧
    (k.relabel (.ofIds (· + 7) (add_left_injective 7))).hash = k.hash := by
  obtain ⟨k, s, hk, hs, hnames⟩ : ∃ k s, (tileJob.definition 2).build "c" = .ok k ∧
      k.source = some s ∧ ∀ v ∈ k.vars, v.name ≠ "" := ⟨_, _, rfl, rfl, by decide⟩
  have hsource : sourceOf ((tileJob.definition 2).build "c") = .ok (some s) := by
    rw [hk, ← hs]
    rfl
  obtain ⟨-, -, -, hhash, hparallel⟩ := pipeline_relabel (.ofIds (· + 7) (add_left_injective 7))
    (tileJob.definition 2).start tileJob.signature tileJob.options
  refine ⟨k, s, hk, hs, ?_, (hhash k hnames).2⟩
  rw [hparallel "c" 2 [1, 0, 0, 1, 0] [tileJob, tileJob], List.map_cons, List.map_cons,
    List.map_nil, hsource]

end LoopNest
