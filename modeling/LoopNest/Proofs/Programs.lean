import LoopNest.Proofs.Completeness
import LoopNest.Proofs.Enumeration

/-!
# Programs that record scripts

A program over a trace is compared with a script part by part, in the order in which the program is
written: statements, loops described by their bodies, and arrays for the rest of a scope. What a
program selects from views leaves no record.

* `Script.fresh_play`: a script makes as many variables as it counts;
* `Tracing.Records`: a program does what a script does, and succeeds;
* `Tracing.Records.statement`, `Tracing.Records.loop`, `Tracing.Records.allocate` and so on: the
  parts of a program;
* **`Definition.lower_of_records`**: a kernel is lowered to what its script stands for.
-/

namespace LoopNest

/-! ## Variables of a script -/

theorem Trace.fresh_leave {t u : Trace} {h : OpenScope} (hu : t.leave h = .ok u) :
    u.fresh = t.fresh := by
  obtain ⟨tree, -, hu⟩ := bind_eq_ok_iff.1 hu
  obtain rfl := Except.ok.inj hu
  rfl

/-- As many variables are made as the script counts. -/
theorem Script.fresh_play {s : Script} {t u : Trace} (h : s.play t = .ok u) :
    u.fresh = t.fresh + s.count := by
  induction s generalizing t u with
  | done =>
    obtain rfl := Except.ok.inj h
    rfl
  | statement s rest ih =>
    obtain ⟨v, hv, h⟩ := bind_eq_ok_iff.1 h
    rw [s.play_eq] at hv
    obtain rfl := Except.ok.inj hv
    rw [ih h]
    rfl
  | loop kind decl parts hparts body rest ihb ihr =>
    obtain ⟨⟨r, v⟩, hv, h⟩ := bind_eq_ok_iff.1 h
    rw [enterLoop_eq hparts] at hv
    obtain ⟨-, rfl⟩ := Prod.mk.inj (Except.ok.inj hv)
    obtain ⟨w, hw, h⟩ := bind_eq_ok_iff.1 h
    obtain ⟨x, hx, h⟩ := bind_eq_ok_iff.1 h
    rw [ihr h, Trace.fresh_leave hx, ihb hw, count, ← Nat.add_assoc, ← Nat.add_assoc]
  | buffer shape storage type name body rest ihb ihr =>
    obtain ⟨w, hw, h⟩ := bind_eq_ok_iff.1 h
    obtain ⟨x, hx, h⟩ := bind_eq_ok_iff.1 h
    rw [ihr h, Trace.fresh_leave hx, ihb hw, count, ← Nat.add_assoc, ← Nat.add_assoc]
    rfl
  | allocate shape storage type name rest ih =>
    rw [ih h, count, ← Nat.add_assoc]
    rfl
  | letVar name value rest ih =>
    rw [ih h, count, ← Nat.add_assoc]
    rfl

/-! ## Programs and scripts -/

namespace Tracing

/-- A program leaves the trace of a script, whose variables are numbered from `n` on. -/
def Records (p : Tracing Id Unit) (s : Script) (n : Nat) : Prop :=
  ∀ t u : Trace, t.fresh = n → s.play t = .ok u → p.run t = (.ok (), u)

namespace Records

variable {p q : Tracing Id Unit} {body rest : Script} {n : Nat}

theorem done : Records (pure ()) .done n := by
  intro t u _ h
  obtain rfl := Except.ok.inj h
  rfl

/-- A last part has nothing behind it. -/
theorem last {s : Script} (h : Records (p >>= fun _ => pure ()) s n) : Records p s n := by
  rwa [bind_pure_comp, show (fun _ : Unit => ()) = id from rfl, id_map] at h

theorem statement {s : Statement} {f : Trace → Except Error Trace} (hf : ∀ t, f t = s.play t)
    (h : Records q rest n) : Records (act f >>= fun _ => q) (.statement s rest) n := by
  intro t u ht hu
  obtain ⟨v, hv, hu⟩ := bind_eq_ok_iff.1 hu
  rw [run_bind_of_ok (run_act_of_ok ((hf t).trans hv))]
  rw [s.play_eq] at hv
  obtain rfl := Except.ok.inj hv
  exact h _ u ht hu

theorem select {α : Type} {x : Except Error α} {a : α} {f : α → Tracing Id Unit} {s : Script}
    (hx : x = .ok a) (h : Records (f a) s n) : Records (ofExcept x >>= f) s n := by
  intro t u ht hu
  have hrun : (ofExcept x : Tracing Id α).run t = (.ok a, t) := run_tryOp_of_ok (by rw [hx]; rfl)
  rw [run_bind_of_ok hrun]
  exact h t u ht hu

theorem allocate {shape : List Expr} {storage : String} {type : ElemType} {name : String}
    {f : View → Tracing Id Unit}
    (h : Records (f (.root ⟨n, name, type⟩ shape storage)) rest (n + 1)) :
    Records (op (fun t => t.allocate shape storage type name) >>= f)
      (.allocate shape storage type name rest) n := by
  intro t u ht hu
  have hrun : (op (m := Id) fun t => t.allocate shape storage type name).run t =
      (.ok (View.root ⟨t.fresh, name, type⟩ shape storage),
        (t.allocate shape storage type name).2) := rfl
  rw [run_bind_of_ok hrun, ht]
  exact h _ u (congrArg (· + 1) ht) hu

theorem loop {kind : LoopKind} {decl : LoopDecl} {parts : List (String × Range × String)}
    {f : List Var → Tracing Id Unit} (hparts : decl.check = .ok parts)
    (hbody : Records (f (Script.numbered n (parts.map Prod.fst))) body (n + parts.length))
    (h : Records q rest (n + parts.length + body.count)) :
    Records (forEach kind decl f >>= fun _ => q) (.loop kind decl parts hparts body rest) n := by
  intro t u ht hu
  obtain ⟨⟨⟨scope, vars⟩, v⟩, hv, hu⟩ := bind_eq_ok_iff.1 hu
  obtain ⟨w, hw, hu⟩ := bind_eq_ok_iff.1 hu
  obtain ⟨x, hx, hu⟩ := bind_eq_ok_iff.1 hu
  have henter := hv
  rw [Script.enterLoop_eq hparts] at henter
  obtain ⟨hscope, hfresh⟩ := Prod.mk.inj (Except.ok.inj henter)
  have hvars : vars = Script.numbered n (parts.map Prod.fst) := by
    rw [← ht, ← (Prod.mk.inj hscope).2]
  have hv' : v.fresh = n + parts.length := by
    rw [← hfresh, ← ht]
  have hx' : x.fresh = n + parts.length + body.count := by
    rw [Trace.fresh_leave hx, Script.fresh_play hw, hv']
  rw [run_bind_of_ok (run_forEach_of_ok hv (hvars ▸ hbody v w hv' hw) hx)]
  exact h x u hx' hu

end Records

end Tracing

/-- **A kernel is lowered to what its script stands for**, after the passes. -/
theorem Definition.lower_of_records {d : Definition Id} {s : Script} {b : Block}
    (hs : (d.body d.views d.signature.scalars).Records s d.fresh)
    (hb : s.reading d.fresh = .ok [b]) :
    d.lower = .ok ⟨d.signature, d.options.apply d.views b, none⟩ := by
  obtain ⟨htree, hfresh⟩ := d.tree_start
  obtain ⟨bound, hplay⟩ := s.play_eq d.start (htree ▸ ScopeTree.ready_empty)
  refine lower_of_recorded (hs _ _ hfresh hplay) ?_
  rw [toBlock_of_play hplay, hb]
  rfl

end LoopNest
