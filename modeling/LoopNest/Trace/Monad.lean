import LoopNest.Trace.Basic

/-!
# Client code that records

A kernel is described by a program over a trace. It may stop at an error, and then the trace stays
as it is at that point. A loop may be described by the code for its body, between the opening and
the end of its scope; if the body fails, the scope is left open.

* `Tracing`: programs over a trace;
* `Tracing.op`, `Tracing.run`: one operation, and a whole program;
* `Tracing.forEach`: a loop by its body;
* `Tracing.run_bind_of_ok`, `Tracing.run_bind_of_error`: programs step by step.
-/

namespace LoopNest

/-- A program over a trace, on top of a monad of the client's. -/
abbrev Tracing (m : Type → Type) := ExceptT Error (StateT Trace m)

namespace Tracing

variable {m : Type → Type} [Monad m] {α : Type}

/-- An operation that cannot fail. -/
def op (f : Trace → α × Trace) : Tracing m α := ExceptT.lift fun t => pure (f t)

/-- An operation that may fail, and then changes nothing. -/
def tryOp (f : Trace → Except Error (α × Trace)) : Tracing m α :=
  ExceptT.mk fun t =>
    match f t with
    | .ok (a, t') => pure (.ok a, t')
    | .error e => pure (.error e, t)

/-- An operation for its effect alone. -/
def act (f : Trace → Except Error Trace) : Tracing m Unit :=
  tryOp fun t => (f t).map fun t' => ((), t')

/-- A selection that depends on no trace. -/
def ofExcept (x : Except Error α) : Tracing m α := tryOp fun t => x.map fun a => (a, t)

/-- Run a program on a trace: its outcome, and the trace it leaves. -/
def run (p : Tracing m α) (t : Trace) : m (Except Error α × Trace) := (ExceptT.run p).run t

/-- Describe a loop by its body, which is given the index variables. -/
def forEach (kind : LoopKind) (decl : LoopDecl) (body : List Var → Tracing m Unit) :
    Tracing m Unit := do
  let (loop, vars) ← tryOp fun t => t.enterLoop kind decl
  body vars
  act fun t => t.leave loop

/-! ## Running programs -/

variable {β : Type} {t u : Trace} {e : Error}

theorem run_tryOp_of_ok {f : Trace → Except Error (α × Trace)} {a : α} (h : f t = .ok (a, u)) :
    (tryOp f : Tracing m α).run t = pure (.ok a, u) := by
  simp only [tryOp, run, ExceptT.run, ExceptT.mk, StateT.run, h]

/-- An operation that fails leaves the trace of a program as it was. -/
theorem run_tryOp_of_error {f : Trace → Except Error (α × Trace)} (h : f t = .error e) :
    (tryOp f : Tracing m α).run t = pure (.error e, t) := by
  simp only [tryOp, run, ExceptT.run, ExceptT.mk, StateT.run, h]

theorem run_act_of_ok {f : Trace → Except Error Trace} (h : f t = .ok u) :
    (act f : Tracing m Unit).run t = pure (.ok (), u) := by
  refine run_tryOp_of_ok ?_
  rw [h]
  rfl

theorem run_act_of_error {f : Trace → Except Error Trace} (h : f t = .error e) :
    (act f : Tracing m Unit).run t = pure (.error e, t) := by
  refine run_tryOp_of_error ?_
  rw [h]
  rfl

theorem run_return (a : α) (t : Trace) : (pure a : Tracing m α).run t = pure (.ok a, t) := rfl

theorem run_throw (e : Error) (t : Trace) : (throw e : Tracing m α).run t = pure (.error e, t) :=
  rfl

variable [LawfulMonad m]

/-- After a step that succeeds comes the next one, on the trace that it leaves. -/
theorem run_bind_of_ok {p : Tracing m α} {a : α} (h : p.run t = pure (.ok a, u))
    (f : α → Tracing m β) : (p >>= f).run t = (f a).run u := by
  rw [run] at h ⊢
  rw [ExceptT.run_bind, StateT.run_bind, h, pure_bind]
  rfl

/-- After a step that fails comes nothing, and what was done stays. -/
theorem run_bind_of_error {p : Tracing m α} (h : p.run t = pure (.error e, u))
    (f : α → Tracing m β) : (p >>= f).run t = pure (.error e, u) := by
  rw [run] at h ⊢
  rw [ExceptT.run_bind, StateT.run_bind, h, pure_bind]
  rfl

/-- A loop that is described by its body, where its declaration is good and the body succeeds. -/
theorem run_forEach_of_ok {kind : LoopKind} {decl : LoopDecl} {body : List Var → Tracing m Unit}
    {loop : OpenScope} {vars : List Var} {w x : Trace}
    (henter : t.enterLoop kind decl = .ok ((loop, vars), u))
    (hbody : (body vars).run u = pure (.ok (), w)) (hleave : w.leave loop = .ok x) :
    (forEach kind decl body).run t = pure (.ok (), x) := by
  rw [forEach, run_bind_of_ok (run_tryOp_of_ok henter), run_bind_of_ok hbody]
  exact run_act_of_ok hleave

end Tracing

end LoopNest
