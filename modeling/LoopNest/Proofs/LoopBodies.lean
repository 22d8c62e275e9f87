import LoopNest.Proofs.Discipline
import LoopNest.Proofs.RenamedTraces

/-!
# Loops that are described by their bodies

The handle of such a loop is in nobody's hands while its body is done, so its scope stays open for
all that the body may do, and stands between the scopes that the body opens and those around the
loop. If the body succeeds and the scope is ended, what is open is what was open before. Else the
handle is lost. Then no scope around the loop can be ended any more, and no kernel comes of the
trace.

* `ScopeTree.Locked`: a scope without a handle is open;
* **`ScopeTree.Locked.grows`**, **`ScopeTree.Locked.leave`**: no step changes this;
* `Attempting`: programs that do nothing but attempts, whatever decides between them;
* **`forEach_all_or_nothing`**: a loop leaves no trace of its scope, or no kernel.
-/

namespace LoopNest

/-! ## A scope without a handle -/

namespace ScopeTree

/-- An explicit scope is open around some scopes and inside others. None of the handles is its
own. -/
structure Locked (k : Nat) (around : List Nat) (t : ScopeTree) (K : List OpenScope) : Prop where
  ordered : t.Ordered
  pos : 0 < k
  opened : ∃ inside, t.opened = inside ++ k :: around
  explicit : t.isImplicit k = false
  lost : ∀ h ∈ K, h.id ≠ k

namespace Locked

variable {k : Nat} {around : List Nat} {t u : ScopeTree} {K L : List OpenScope}

theorem mem_opened (ht : Locked k around t K) : k ∈ t.opened := by
  obtain ⟨inside, hopened⟩ := ht.opened
  rw [hopened]
  exact List.mem_append_right _ List.mem_cons_self

theorem mono (ht : Locked k around t K) (hsub : L ⊆ K) : Locked k around t L :=
  { ht with lost := fun h hh => ht.lost h (hsub hh) }

/-- A scope that was just entered, whose handle is not among those that there are. -/
theorem enter (ht : t.Ordered) (hK : ∀ h ∈ K, h.id < t.size) (form : ScopeForm) :
    Locked t.size t.opened (t.enter form false) K where
  ordered := ht.enter form false
  pos := ht.lt_size 0 ht.root_mem
  opened := ⟨[], rfl⟩
  explicit := isImplicit_addChild.trans (if_pos rfl)
  lost h hh := Nat.ne_of_lt (hK h hh)

/-- **No operation ends the scope or issues its handle.** -/
theorem grows (ht : Locked k around t K) {h? : Option OpenScope} (hg : Operation.Grows t h? u) :
    Locked k around u (h?.toList ++ K) := by
  have hk : k < t.size := ht.ordered.lt_size k ht.mem_opened
  obtain ⟨inside, hopened⟩ := ht.opened
  have hexplicit : ∀ form implicit, (t.addChild form implicit).isImplicit k = false :=
    fun form implicit => by rw [isImplicit_addChild, if_neg (Nat.ne_of_lt hk), ht.explicit]
  have hentered : (∃ inside, t.size :: t.opened = inside ++ k :: around) :=
    ⟨t.size :: inside, congrArg _ hopened⟩
  cases hg with
  | same => exact ht
  | statement b => exact ⟨ht.ordered.addStatement b, ht.pos, ht.opened, hexplicit _ _, ht.lost⟩
  | implicit form => exact ⟨ht.ordered.enter form true, ht.pos, hentered, hexplicit _ _, ht.lost⟩
  | explicit form =>
    refine ⟨ht.ordered.enter form false, ht.pos, hentered, hexplicit _ _, fun h hh => ?_⟩
    rcases List.mem_cons.1 hh with rfl | hh
    · exact (Nat.ne_of_lt hk).symm
    · exact ht.lost h hh

/-- The scopes around this one are those with smaller numbers. -/
theorem opened_closed (ht : Locked k around t K) : (t.closed k).opened = around := by
  obtain ⟨inside, hopened⟩ := ht.opened
  have hdesc := hopened ▸ ht.ordered.descending
  obtain ⟨-, hcons, hinside⟩ := List.pairwise_append.1 hdesc
  have hnone : inside.filter (· < k) = [] := List.filter_eq_nil_iff.2 fun s hs => by
    have := hinside s hs k List.mem_cons_self
    simp
    omega
  have hall : around.filter (· < k) = around := List.filter_eq_self.2 fun s hs => by
    simpa using (List.pairwise_cons.1 hcons).1 s hs
  rw [closed, hopened, List.filter_append, hnone, List.filter_cons_of_neg (by simp), hall,
    List.nil_append]

/-- The end of a scope inside this one. -/
theorem closed (ht : Locked k around t K) {id : Nat} (hid : k < id) :
    Locked k around (t.closed id) K := by
  obtain ⟨inside, hopened⟩ := ht.opened
  have hdesc := hopened ▸ ht.ordered.descending
  obtain ⟨-, hcons, -⟩ := List.pairwise_append.1 hdesc
  have hall : around.filter (· < id) = around := List.filter_eq_self.2 fun s hs => by
    have := (List.pairwise_cons.1 hcons).1 s hs
    simp
    omega
  refine ⟨ht.ordered.closed (by omega), ht.pos, ⟨inside.filter (· < id), ?_⟩, ht.explicit, ht.lost⟩
  rw [ScopeTree.closed, hopened, List.filter_append,
    List.filter_cons_of_pos (by simpa using hid), hall]

/-- **No other handle ends the scope**, or one around it. -/
theorem leave (ht : Locked k around t K) {id : Nat} (hid : id ≠ k) (hu : t.close id = .ok u) :
    Locked k around u K := by
  obtain ⟨-, ⟨-, hinside⟩, rfl⟩ := close_eq_ok ht.ordered hu
  have hlt : k < id := by
    by_contra hle
    have := hinside k ht.mem_opened (by omega)
    exact absurd (ht.explicit.symm.trans this) (by decide)
  exact ht.closed hlt

end Locked

end ScopeTree

/-- **Whatever is attempted, a scope without a handle stays open.** -/
theorem Attempts.locked_play {k : Nat} {around : List Nat} (as : Attempts) {S : Desk}
    {K : List OpenScope} (hS : S.trace.tree.Locked k around (S.held ++ K)) :
    (as.play S).trace.tree.Locked k around ((as.play S).held ++ K) := by
  refine as.play_induction (P := fun t K => t.tree.Locked k around K) ?_ ?_ ?_ hS
  · intro t K L hsub ht
    exact ht.mono hsub
  · intro t K o h? u ht hu
    exact ht.grows (Operation.grows_of_perform hu)
  · intro t K h u ht hh hu
    obtain ⟨tree, htree, hu⟩ := bind_eq_ok_iff.1 hu
    obtain rfl := Except.ok.inj hu
    exact ht.leave (ht.lost h hh) htree

/-- The trace cannot be finished. -/
theorem ScopeTree.Locked.toBlock {k : Nat} {around : List Nat} {t : Trace} {K : List OpenScope}
    (ht : t.tree.Locked k around K) : ∃ e, t.toBlock = .error e ∧ e.kind = .stackDiscipline := by
  rw [Trace.toBlock_undisciplined_iff ht.ordered]
  refine List.ne_nil_of_mem (List.mem_filter.2 ⟨ht.mem_opened, ?_⟩)
  simpa using ⟨ht.pos, ht.explicit⟩

/-! ## Programs of attempts -/

/-- A program does nothing but attempts. Which these are may depend on what comes of them. -/
def Attempting {α : Type} (p : Handling α) : Prop :=
  ∀ S : Desk, ∃ as : Attempts, (S.run p).2 = as.play S

section Attempting

variable {α β : Type}

theorem attempting_pure (a : α) : Attempting (pure a) := fun _ => ⟨.done, rfl⟩

theorem attempting_perform (o : Operation) : Attempting (Desk.program fun S => S.perform o) :=
  fun _ => ⟨.perform o .done, rfl⟩

theorem attempting_leave (place : Nat) : Attempting (Desk.program fun S => S.leave place) :=
  fun _ => ⟨.leave place .done, rfl⟩

theorem Attempting.bind {p : Handling α} {f : α → Handling β} (hp : Attempting p)
    (hf : ∀ a, Attempting (f a)) : Attempting (p >>= f) := by
  intro S
  obtain ⟨as, has⟩ := hp S
  cases h : S.run p with
  | mk r T =>
    rw [h] at has
    rw [Desk.run_bind h]
    cases r with
    | error e => exact ⟨as, has⟩
    | ok a =>
      obtain ⟨bs, hbs⟩ := hf a T
      refine ⟨as.andThen bs, hbs.trans ?_⟩
      rw [Attempts.play_andThen, ← has]

theorem attempting_forEach (kind : LoopKind) (decl : LoopDecl) {body : List Var → Handling Unit}
    (hbody : ∀ vars, Attempting (body vars)) : Attempting (Tracing.forEach kind decl body) := by
  intro S
  cases henter : S.trace.enterLoop kind decl with
  | error e =>
    refine ⟨.done, ?_⟩
    rw [Desk.run_forEach, henter]
    rfl
  | ok r =>
    obtain ⟨⟨h, vars⟩, u⟩ := r
    obtain ⟨as, has⟩ := hbody vars ⟨u, S.held⟩
    refine ⟨.forEach kind decl as ((Desk.mk u S.held).run (body vars)).1 .done, ?_⟩
    rw [Attempts.play, Attempts.play, Desk.run_forEach, Desk.run_forEach, henter]
    dsimp only
    rw [Desk.run_program, ← has]

end Attempting

/-! ## All or nothing -/

theorem Trace.enterLoop_eq_ok {t u : Trace} {kind : LoopKind} {decl : LoopDecl} {h : OpenScope}
    {vars : List Var} (henter : t.enterLoop kind decl = .ok ((h, vars), u)) :
    h = ⟨t.tree.size⟩ ∧ ∃ is, u.tree = t.tree.enter (.loop kind is) false := by
  obtain ⟨parts, hparts, -⟩ := bind_eq_ok_iff.1 henter
  rw [Script.enterLoop_eq hparts] at henter
  obtain ⟨hr, rfl⟩ := Prod.mk.inj (Except.ok.inj henter)
  exact ⟨(Prod.mk.inj hr).1.symm, _, rfl⟩

section

variable {S T : Desk} {kind : LoopKind} {decl : LoopDecl} {outer : List OpenScope}

/-- While the body of a loop is done, and after it, the scope of the loop is open. -/
theorem locked_body {p : Handling Unit} (hp : Attempting p) (hS : S.trace.tree.Ordered)
    (hheld : ∀ h ∈ S.held ++ outer, h.id < S.trace.tree.size) {h : OpenScope} {vars : List Var}
    {u : Trace} (henter : S.trace.enterLoop kind decl = .ok ((h, vars), u)) :
    ScopeTree.Locked S.trace.tree.size S.trace.tree.opened
      ((Desk.mk u S.held).run p).2.trace.tree (((Desk.mk u S.held).run p).2.held ++ outer) := by
  obtain ⟨-, is, hu⟩ := Trace.enterLoop_eq_ok henter
  obtain ⟨as, has⟩ := hp ⟨u, S.held⟩
  rw [has]
  refine as.locked_play ?_
  rw [hu]
  exact .enter hS hheld _

variable {body : List Var → Handling Unit} (hbody : ∀ vars, Attempting (body vars))

include hbody

/-- A loop that succeeds has ended its scope, and what was opened inside it. -/
theorem opened_forEach (hS : S.trace.tree.Ordered) (hheld : ∀ h ∈ S.held, h.id < S.trace.tree.size)
    (hrun : S.run (Tracing.forEach kind decl body) = (.ok (), T)) :
    T.trace.tree.opened = S.trace.tree.opened := by
  rw [Desk.run_forEach] at hrun
  cases henter : S.trace.enterLoop kind decl with
  | error e =>
    rw [henter] at hrun
    exact nomatch (Prod.mk.inj hrun).1
  | ok r =>
    obtain ⟨⟨h, vars⟩, u⟩ := r
    obtain ⟨rfl, -⟩ := Trace.enterLoop_eq_ok henter
    have hheld : ∀ h ∈ S.held ++ [], h.id < S.trace.tree.size := by simpa using hheld
    have hlocked := locked_body (hbody vars) hS hheld henter
    rw [henter] at hrun
    dsimp only at hrun
    cases hinside : (Desk.mk u S.held).run (body vars) with
    | mk outcome V =>
      rw [hinside] at hrun hlocked
      cases outcome with
      | error e => exact nomatch (Prod.mk.inj hrun).1
      | ok _ =>
        dsimp only at hrun
        cases hleave : V.trace.leave ⟨S.trace.tree.size⟩ with
        | error e =>
          rw [hleave] at hrun
          exact nomatch (Prod.mk.inj hrun).1
        | ok w =>
          rw [hleave] at hrun
          obtain ⟨-, rfl⟩ := Prod.mk.inj hrun
          obtain ⟨-, rfl⟩ := (Trace.leave_eq_ok_iff hlocked.ordered hlocked.pos).1 hleave
          exact hlocked.opened_closed

/-- A loop that fails when its scope was opened leaves it open, without a handle. -/
theorem locked_forEach (hS : S.trace.tree.Ordered)
    (hheld : ∀ h ∈ S.held ++ outer, h.id < S.trace.tree.size) {e : Error}
    (hrun : S.run (Tracing.forEach kind decl body) = (.error e, T))
    {r : (OpenScope × List Var) × Trace} (henter : S.trace.enterLoop kind decl = .ok r) :
    ScopeTree.Locked S.trace.tree.size S.trace.tree.opened T.trace.tree (T.held ++ outer) := by
  obtain ⟨⟨h, vars⟩, u⟩ := r
  have hlocked := locked_body (hbody vars) hS hheld henter
  rw [Desk.run_forEach, henter] at hrun
  dsimp only at hrun
  cases hinside : (Desk.mk u S.held).run (body vars) with
  | mk outcome V =>
    rw [hinside] at hrun hlocked
    cases outcome with
    | error e' => exact (Prod.mk.inj hrun).2 ▸ hlocked
    | ok _ =>
      dsimp only at hrun
      cases hleave : V.trace.leave h with
      | error e' =>
        rw [hleave] at hrun
        exact (Prod.mk.inj hrun).2 ▸ hlocked
      | ok w =>
        rw [hleave] at hrun
        exact nomatch (Prod.mk.inj hrun).1

end

/-- What a client has before it when it has tried something on a new trace. -/
def Attempts.desk (as : Attempts) (n : Nat) : Desk := as.play ⟨.start n, []⟩

/-- The client holds handles of this trace only. -/
theorem Attempts.valid_desk (as : Attempts) (n : Nat) : (as.desk n).trace.tree.Ordered ∧
    ∀ h ∈ (as.desk n).held, h.id < (as.desk n).trace.tree.size := by
  obtain ⟨L, hrun, hheld⟩ := Trace.run_play as n
  have htally := hrun.tally
  exact ⟨htally.ordered, fun h hh => (htally.entered h (hheld h hh)).2.1⟩

/-- **A loop is recorded, or nothing is ever built.** A client has done anything with its trace, and
describes a loop by a body that does anything in its turn. If the loop succeeds, the open scopes are
those that were open before. If it fails once its scope was opened, then whatever the client tries
from then on, with handles of this trace, also those of loops whose bodies it is in, the trace
cannot be finished for want of discipline, and there is no kernel. -/
theorem forEach_all_or_nothing (before : Attempts) (n : Nat) (kind : LoopKind) (decl : LoopDecl)
    {body : List Var → Handling Unit} (hbody : ∀ vars, Attempting (body vars))
    {outcome : Except Error Unit} {T : Desk}
    (hrun : (before.desk n).run (Tracing.forEach kind decl body) = (outcome, T)) :
    (outcome = .ok () → T.trace.tree.opened = (before.desk n).trace.tree.opened) ∧
    ∀ e r, outcome = .error e → (before.desk n).trace.enterLoop kind decl = .ok r →
      ∀ outer : List OpenScope, (∀ h ∈ outer, h.id < (before.desk n).trace.tree.size) →
      ∀ after : Attempts, ∃ e', e'.kind = .stackDiscipline ∧
        (after.play ⟨T.trace, T.held ++ outer⟩).trace.toBlock = .error e' ∧
        ∀ signature options,
          (after.play ⟨T.trace, T.held ++ outer⟩).trace.kernel signature options = .error e' := by
  obtain ⟨hordered, hheld⟩ := before.valid_desk n
  refine ⟨?_, ?_⟩
  · rintro rfl
    exact opened_forEach hbody hordered hheld hrun
  · rintro e r rfl henter outer houter after
    have hall : ∀ h ∈ (before.desk n).held ++ outer, h.id < (before.desk n).trace.tree.size :=
      fun h hh => (List.mem_append.1 hh).elim (hheld h) (houter h)
    have hlocked := locked_forEach hbody hordered hall hrun henter
    have hafter := after.locked_play (S := ⟨T.trace, T.held ++ outer⟩) (K := [])
      (by rwa [List.append_nil])
    obtain ⟨e', he', hkind⟩ := hafter.toBlock
    refine ⟨e', hkind, he', fun signature options => ?_⟩
    rw [Trace.kernel, he']
    rfl

/-- A body with a loop of its own, in which a function is called. It may try to end the scope of the
loop around its own. -/
def tickBody (meddles : Bool) (vars : List Var) : Handling Unit := do
  Tracing.forEach .zigzag (.one "m" ⟨.int 0, .int 2, .int 1⟩) fun inner =>
    Desk.program fun S => S.perform (.call .int32 "tick" ((vars ++ inner).map .var))
  if meddles then Desk.program fun S => S.leave 0

theorem attempting_tickBody (meddles : Bool) (vars : List Var) :
    Attempting (tickBody meddles vars) := by
  refine (attempting_forEach _ _ fun _ => attempting_perform _).bind fun _ => ?_
  split
  · exact attempting_leave 0
  · exact attempting_pure ()

/-- A loop over two points whose handle the client keeps. -/
def keptLoop : Attempts :=
  .perform (.enterLoop .spatial (.one "i" ⟨.int 0, .int 2, .int 1⟩)) .done

/-- A loop inside it, by its body. -/
def tickInside (meddles : Bool) : Except Error Unit × Desk :=
  (keptLoop.desk 0).run
    (Tracing.forEach .reduce (.one "k" ⟨.int 0, .int 3, .int 1⟩) (tickBody meddles))

theorem forEach_all_or_nothing_tickInside :
    (tickInside false).2.trace.tree.opened = (keptLoop.desk 0).trace.tree.opened ∧
    ∀ after : Attempts, ∃ e, e.kind = .stackDiscipline ∧
      (after.play (tickInside true).2).trace.toBlock = .error e := by
  have hgood := forEach_all_or_nothing keptLoop 0 .reduce (.one "k" ⟨.int 0, .int 3, .int 1⟩)
    (attempting_tickBody false) (T := (tickInside false).2) rfl
  have hbad := forEach_all_or_nothing keptLoop 0 .reduce (.one "k" ⟨.int 0, .int 3, .int 1⟩)
    (attempting_tickBody true) (T := (tickInside true).2) rfl
  refine ⟨hgood.1 rfl, fun after => ?_⟩
  obtain ⟨e, hkind, he, -⟩ := hbad.2 _ _ rfl rfl [] nofun after
  exact ⟨e, hkind, by rwa [List.append_nil] at he⟩

end LoopNest
