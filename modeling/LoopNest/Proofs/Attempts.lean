import LoopNest.Proofs.Handles
import LoopNest.Trace.Monad

/-!
# A client at work

A client tries one operation after the other on a trace. Some fail, and it goes on. It ends scopes
by the handles in its hands, in any order, and describes loops by their bodies, which are no better
than the rest. The handle of such a loop is in nobody's hands: it is used when the body is done, and
lost when the body fails.

* `Desk`: a trace, and the handles in the hands of its client;
* `Desk.run`, `Desk.perform`, `Desk.leave`: what the client may do;
* **`Desk.run_forEach`**: a loop by its body, in all its outcomes;
* `Attempts`, `Attempts.play`: one attempt after the other;
* **`Attempts.play_induction`**: what every step keeps is kept.
-/

namespace LoopNest

/-- A trace, and the handles in the hands of its client. -/
structure Desk where
  trace : Trace
  held : List OpenScope

/-- A program over a trace whose client keeps handles. -/
abbrev Handling := Tracing (StateM (List OpenScope))

namespace Desk

variable {α β : Type} {S T : Desk}

/-- A program: its outcome, and what it leaves. -/
def run (S : Desk) (p : Handling α) : Except Error α × Desk :=
  let ((outcome, t), held) := (p.run S.trace).run S.held
  (outcome, ⟨t, held⟩)

/-- A program by what it does. -/
def program (f : Desk → Except Error α × Desk) : Handling α :=
  ExceptT.mk fun t held =>
    let (outcome, T) := f ⟨t, held⟩
    ((outcome, T.trace), T.held)

theorem run_program (f : Desk → Except Error α × Desk) (S : Desk) : S.run (program f) = f S := rfl

/-! ## Programs step by step -/

theorem run_eq_iff {p : Handling α} {r : Except Error α} :
    S.run p = (r, T) ↔ ((ExceptT.run p).run S.trace).run S.held = ((r, T.trace), T.held) := by
  constructor
  · intro h
    obtain ⟨hr, hT⟩ := Prod.mk.inj h
    rw [← hr, ← hT]
    rfl
  · intro h
    exact congrArg (fun q => ((q.1.1, ⟨q.1.2, q.2⟩) : Except Error α × Desk)) h

/-- What follows a program is done only if the program succeeds. -/
theorem run_bind {p : Handling α} {r : Except Error α} (h : S.run p = (r, T)) (f : α → Handling β) :
    S.run (p >>= f) = match r with
      | .ok a => T.run (f a)
      | .error e => (.error e, T) := by
  rw [run_eq_iff] at h
  cases r with
  | ok a =>
    rw [run_eq_iff, ExceptT.run_bind, StateT.run_bind, StateT.run_bind, h]
    rfl
  | error e =>
    rw [run_eq_iff, ExceptT.run_bind, StateT.run_bind, StateT.run_bind, h]
    rfl

theorem run_tryOp (f : Trace → Except Error (α × Trace)) (S : Desk) :
    S.run (Tracing.tryOp f) = match f S.trace with
      | .ok (a, u) => (.ok a, ⟨u, S.held⟩)
      | .error e => (.error e, S) := by
  cases h : f S.trace with
  | ok r =>
    rw [run_eq_iff]
    simp only [Tracing.tryOp, ExceptT.run, ExceptT.mk, StateT.run, h]
    rfl
  | error e =>
    rw [run_eq_iff]
    simp only [Tracing.tryOp, ExceptT.run, ExceptT.mk, StateT.run, h]
    rfl

theorem run_act (f : Trace → Except Error Trace) (S : Desk) :
    S.run (Tracing.act f) = match f S.trace with
      | .ok u => (.ok (), ⟨u, S.held⟩)
      | .error e => (.error e, S) := by
  rw [Tracing.act, run_tryOp]
  cases f S.trace <;> rfl

/-- An operation. If it opens an explicit scope, the client is given the handle. -/
def perform (S : Desk) (o : Operation) : Except Error Unit × Desk :=
  match S.run (Tracing.tryOp fun t => o.perform t) with
  | (.ok h?, T) => (.ok (), { T with held := h?.toList ++ T.held })
  | (.error e, T) => (.error e, T)

/-- The end of a scope by one of the handles, which is used up even if this fails. -/
def leave (S : Desk) (place : Nat) : Except Error Unit × Desk :=
  match S.held[place]? with
  | none => (.ok (), S)
  | some h => { S with held := S.held.eraseIdx place }.run (Tracing.act fun t => t.leave h)

/-- **A loop by its body.** A bad declaration changes nothing. Else the scope is opened, the body is
done, and if it succeeds, the scope is ended. If the body or the end of the scope fails, nothing
more is done. -/
theorem run_forEach (S : Desk) (kind : LoopKind) (decl : LoopDecl)
    (body : List Var → Handling Unit) :
    S.run (Tracing.forEach kind decl body) = match S.trace.enterLoop kind decl with
      | .error e => (.error e, S)
      | .ok ((h, vars), u) =>
        match (Desk.mk u S.held).run (body vars) with
        | (.error e, T) => (.error e, T)
        | (.ok (), T) =>
          match T.trace.leave h with
          | .error e => (.error e, T)
          | .ok w => (.ok (), ⟨w, T.held⟩) := by
  have henter := run_tryOp (fun t => t.enterLoop kind decl) S
  rw [Tracing.forEach]
  cases h : S.trace.enterLoop kind decl with
  | error e =>
    rw [h] at henter
    exact run_bind henter _
  | ok r =>
    obtain ⟨⟨l, vars⟩, u⟩ := r
    rw [h] at henter
    rw [run_bind henter]
    dsimp only
    cases hbody : (Desk.mk u S.held).run (body vars) with
    | mk outcome T =>
      rw [run_bind hbody]
      cases outcome with
      | error e => rfl
      | ok _ =>
        dsimp only
        rw [run_act]
        cases T.trace.leave l <;> rfl

end Desk

/-! ## Attempts -/

/-- What a client tries to do with a trace, one thing after the other. -/
inductive Attempts where
  | done
  | perform (o : Operation) (rest : Attempts)
  /-- The end of a scope, by the handle at some place among those in its hands. -/
  | leave (place : Nat) (rest : Attempts)
  /-- A loop by its body, which says in the end whether it succeeded. -/
  | forEach (kind : LoopKind) (decl : LoopDecl) (body : Attempts) (outcome : Except Error Unit)
    (rest : Attempts)

namespace Attempts

/-- What is left when all has been tried. -/
def play : Attempts → Desk → Desk
  | done, S => S
  | perform o rest, S => rest.play (S.perform o).2
  | leave place rest, S => rest.play (S.leave place).2
  | forEach kind decl body outcome rest, S =>
    rest.play (S.run (Tracing.forEach kind decl fun _ =>
      Desk.program fun T => (outcome, body.play T))).2

/-- Some attempts, and then others. -/
def andThen : Attempts → Attempts → Attempts
  | done, bs => bs
  | perform o rest, bs => perform o (rest.andThen bs)
  | leave place rest, bs => leave place (rest.andThen bs)
  | forEach kind decl body outcome rest, bs => forEach kind decl body outcome (rest.andThen bs)

theorem play_andThen (as bs : Attempts) (S : Desk) :
    (as.andThen bs).play S = bs.play (as.play S) := by
  induction as generalizing S with
  | done => rfl
  | perform o rest ih => exact ih _
  | leave place rest ih => exact ih _
  | forEach kind decl body outcome rest _ ih => exact ih _

/-- **What every step keeps is kept**, of a trace and the handles that may be used on it. The handle
of a loop with a body is one of these while the body is done. -/
theorem play_induction {P : Trace → List OpenScope → Prop}
    (weaken : ∀ t K L, L ⊆ K → P t K → P t L)
    (perform : ∀ t K o h? u, P t K → Operation.perform t o = .ok (h?, u) → P u (h?.toList ++ K))
    (leave : ∀ t K h u, P t K → h ∈ K → t.leave h = .ok u → P u K)
    (as : Attempts) {S : Desk} {K : List OpenScope} (hS : P S.trace (S.held ++ K)) :
    P (as.play S).trace ((as.play S).held ++ K) := by
  induction as generalizing S K with
  | done => exact hS
  | perform o rest ih =>
    refine ih ?_
    rw [Desk.perform, Desk.run_tryOp]
    cases hu : Operation.perform S.trace o with
    | error e => exact hS
    | ok r => exact List.append_assoc .. ▸ perform _ _ _ _ _ hS hu
  | leave place rest ih =>
    refine ih ?_
    have hheld : S.held.eraseIdx place ++ K ⊆ S.held ++ K :=
      ((List.eraseIdx_sublist _ _).append_right K).subset
    rw [Desk.leave]
    cases hh : S.held[place]? with
    | none => exact hS
    | some h =>
      dsimp only
      rw [Desk.run_act]
      dsimp only
      cases hu : S.trace.leave h with
      | error e => exact weaken _ _ _ hheld hS
      | ok u =>
        have hmem : h ∈ S.held ++ K := List.mem_append_left K (List.mem_of_getElem? hh)
        exact weaken _ _ _ hheld (leave _ _ h u hS hmem hu)
  | forEach kind decl body outcome rest ihb ih =>
    refine ih ?_
    rw [Desk.run_forEach]
    cases henter : S.trace.enterLoop kind decl with
    | error e => exact hS
    | ok r =>
      obtain ⟨⟨h, vars⟩, u⟩ := r
      have hperform : Operation.perform S.trace (.enterLoop kind decl) = .ok (some h, u) := by
        rw [Operation.perform, henter]
        rfl
      -- the handle of the loop is at hand for as long as the body is done
      have hu : P u (S.held ++ h :: K) := by
        refine weaken _ _ _ ?_ (perform _ _ _ _ _ hS hperform)
        intro x hx
        simp only [Option.toList_some, List.mem_append, List.mem_cons, List.not_mem_nil] at hx ⊢
        tauto
      have hbody := ihb (S := ⟨u, S.held⟩) hu
      have hsub : (body.play ⟨u, S.held⟩).held ++ K ⊆ (body.play ⟨u, S.held⟩).held ++ h :: K :=
        ((List.sublist_cons_self h K).append_left _).subset
      dsimp only
      rw [Desk.run_program]
      cases outcome with
      | error e => exact weaken _ _ _ hsub hbody
      | ok _ =>
        dsimp only
        split
        · exact weaken _ _ _ hsub hbody
        · next w hw =>
          have hh : h ∈ (body.play ⟨u, S.held⟩).held ++ h :: K :=
            List.mem_append_right _ List.mem_cons_self
          exact weaken _ _ _ hsub (leave _ _ h w hbody hh hw)

end Attempts

end LoopNest
