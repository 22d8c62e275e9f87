import LoopNest.Proofs.PrintedKernels
import LoopNest.Proofs.RenamedSource
import Mathlib.Data.Set.Operations

/-!
# What an identity determines

Kernels that are alike are the same kernel over other variables, if at every place they also mention
variables of one type, go back to the same earlier place with them, and call functions of one type.
Over the same variables the emitter cannot tell them apart, so they have the same source.

* `Kernel.hidden`: what the identity of a kernel leaves out;
* `Relabelling.canonical`: variables numbered by their first places;
* **`Expr.Alike.relabel_eq`**, **`Row.Alike.relabel_eq`**: what is alike, over the same variables;
* **`source_eq_of_identity_eq`**: the identity and what it leaves out determine the source.
-/

namespace LoopNest

/-! ## Names at all places -/

namespace Expr

mutual

/-- At every place, expressions that are alike mention variables of one name. -/
theorem Alike.names {e f : Expr} (h : e.Alike f) :
    e.vars.map Var.name = f.vars.map Var.name := by
  cases e <;> cases f <;> try exact False.elim h
  case int | float | str => rfl
  case var => exact congrArg (fun n => [n]) h
  case binary =>
    simp only [vars, List.map_append]
    rw [h.2.1.names, h.2.2.names]
  case cast => exact h.2.names
  case load =>
    rw [vars, vars, List.map_cons, List.map_cons, h.1, h.2.names]
  case call => exact h.2.names

/-- The same for lists. -/
theorem AllAlike.names {es fs : List Expr} (h : AllAlike es fs) :
    (varsAll es).map Var.name = (varsAll fs).map Var.name := by
  cases es <;> cases fs <;> try exact False.elim h
  case nil => rfl
  case cons =>
    rw [varsAll, varsAll, List.map_append, List.map_append, h.1.names, h.2.names]

end

end Expr

section

variable {α : Type} {R : α → α → Prop} {as bs : List α}

theorem names_flatMap {f : α → List Var} (h : List.Forall₂ R as bs)
    (hR : ∀ {a b}, R a b → (f a).map Var.name = (f b).map Var.name) :
    (as.flatMap f).map Var.name = (bs.flatMap f).map Var.name := by
  induction h with
  | nil => rfl
  | cons hab _ ih =>
    rw [List.flatMap_cons, List.flatMap_cons, List.map_append, List.map_append, hR hab, ih]

end

theorem Row.Alike.names {a b : Row} (h : a.Alike b) :
    a.vars.map Var.name = b.vars.map Var.name := by
  cases a <;> cases b <;> try exact False.elim h
  case loop => rw [vars, vars, List.map_cons, List.map_cons, h.2.1, h.2.2.1.names]
  case alloc => rw [vars, vars, List.map_cons, List.map_cons, h.1, h.2.2.1.names]
  case bind =>
    refine names_flatMap h fun hbc => ?_
    rw [List.map_cons, List.map_cons, hbc.1, hbc.2.names]
  case eval => exact Expr.Alike.names h
  case store =>
    simp only [vars, List.map_cons, List.map_append]
    rw [h.1, h.2.1.names, h.2.2.names]
  case close => rfl

theorem Kernel.Alike.names {k l : Kernel} (h : k.Alike l) :
    k.vars.map Var.name = l.vars.map Var.name := by
  have hbuffers := names_flatMap (f := fun b => b.var :: Expr.varsAll b.shape) h.buffers
    fun hbc => by rw [List.map_cons, List.map_cons, hbc.name, hbc.shape.names]
  have hscalars : k.signature.scalars.map Var.name = l.signature.scalars.map Var.name := by
    rw [← List.forall₂_eq_eq_eq, List.forall₂_map_left_iff, List.forall₂_map_right_iff]
    exact h.scalars.imp fun v w hvw => hvw.1
  have hrows := names_flatMap (f := fun p => p.2.vars) h.rows fun hpq => hpq.2.names
  simp only [vars, List.map_append]
  rw [hbuffers, hscalars, k.body.vars_eq_rows 0, l.body.vars_eq_rows 0, hrows]

/-! ## Over the same variables -/

section

variable {r s : Relabelling}

namespace Expr

mutual

/-- **Expressions that are alike**, over variables and with types of calls that agree place by
place, are equal. -/
theorem Alike.relabel_eq (hfloat : ∀ x y : Binary64, x.text = y.text → r.float x = s.float y)
    {e f : Expr} {vs ws : List Var} {ts us : List ElemType} (h : e.Alike f)
    (hv : e.vars.map r.var ++ vs = f.vars.map s.var ++ ws)
    (hc : e.calls.map Prod.snd ++ ts = f.calls.map Prod.snd ++ us) :
    e.relabel r = f.relabel s ∧ vs = ws ∧ ts = us := by
  cases e <;> cases f <;> try exact False.elim h
  case int => exact ⟨congrArg int h, hv, hc⟩
  case float => exact ⟨congrArg float (hfloat _ _ h), hv, hc⟩
  case str => exact ⟨congrArg str h, hv, hc⟩
  case var =>
    obtain ⟨hvar, hv⟩ := List.cons.inj hv
    exact ⟨congrArg var hvar, hv, hc⟩
  case binary op a b p c d =>
    obtain ⟨rfl, hac, hbd⟩ := h
    simp only [vars, calls, List.map_append, List.append_assoc] at hv hc
    obtain ⟨ha, hv, hc⟩ := hac.relabel_eq hfloat hv hc
    obtain ⟨hb, hv, hc⟩ := hbd.relabel_eq hfloat hv hc
    refine ⟨?_, hv, hc⟩
    rw [relabel_binary, relabel_binary, ha, hb]
  case cast t a u b =>
    obtain ⟨rfl, hab⟩ := h
    obtain ⟨ha, hv, hc⟩ := hab.relabel_eq hfloat hv hc
    exact ⟨congrArg (cast t) ha, hv, hc⟩
  case load v is w js =>
    obtain ⟨hvar, hv⟩ := List.cons.inj hv
    obtain ⟨his, hv, hc⟩ := h.2.relabel_eq hfloat hv hc
    refine ⟨?_, hv, hc⟩
    rw [relabel_load, relabel_load, hvar, his]
  case call t f as u g bs =>
    obtain ⟨rfl, hall⟩ := h
    obtain ⟨ht, htypes⟩ := List.cons.inj hc
    obtain rfl : t = u := ht
    obtain ⟨has, hv, hc⟩ := hall.relabel_eq hfloat hv htypes
    refine ⟨?_, hv, hc⟩
    rw [relabel_call, relabel_call, has]

/-- The same for lists. -/
theorem AllAlike.relabel_eq (hfloat : ∀ x y : Binary64, x.text = y.text → r.float x = s.float y)
    {es fs : List Expr} {vs ws : List Var} {ts us : List ElemType} (h : AllAlike es fs)
    (hv : (varsAll es).map r.var ++ vs = (varsAll fs).map s.var ++ ws)
    (hc : (callsAll es).map Prod.snd ++ ts = (callsAll fs).map Prod.snd ++ us) :
    es.map (relabel r) = fs.map (relabel s) ∧ vs = ws ∧ ts = us := by
  cases es <;> cases fs <;> try exact False.elim h
  case nil => exact ⟨rfl, hv, hc⟩
  case cons e es f fs =>
    simp only [varsAll, callsAll, List.map_append, List.append_assoc] at hv hc
    obtain ⟨he, hv, hc⟩ := h.1.relabel_eq hfloat hv hc
    obtain ⟨hes, hv, hc⟩ := h.2.relabel_eq hfloat hv hc
    refine ⟨?_, hv, hc⟩
    rw [List.map_cons, List.map_cons, he, hes]

end

end Expr

section

variable {α β : Type} {R : α → α → Prop} {as bs : List α} {f : α → List Var}
  {g : α → List (String × ElemType)} {p q : α → β}

/-- What is alike item by item is equal, if each item reads its variables and types from the
left. -/
theorem map_eq_of_alike {vs ws : List Var} {ts us : List ElemType} (h : List.Forall₂ R as bs)
    (hR : ∀ {a b : α} {vs ws : List Var} {ts us : List ElemType}, R a b →
      (f a).map r.var ++ vs = (f b).map s.var ++ ws →
      (g a).map Prod.snd ++ ts = (g b).map Prod.snd ++ us → p a = q b ∧ vs = ws ∧ ts = us)
    (hv : (as.flatMap f).map r.var ++ vs = (bs.flatMap f).map s.var ++ ws)
    (hc : (as.flatMap g).map Prod.snd ++ ts = (bs.flatMap g).map Prod.snd ++ us) :
    as.map p = bs.map q ∧ vs = ws ∧ ts = us := by
  induction h with
  | nil => exact ⟨rfl, hv, hc⟩
  | cons hab _ ih =>
    simp only [List.flatMap_cons, List.map_append, List.append_assoc] at hv hc
    obtain ⟨hpq, hv, hc⟩ := hR hab hv hc
    obtain ⟨hall, hv, hc⟩ := ih hv hc
    refine ⟨?_, hv, hc⟩
    rw [List.map_cons, List.map_cons, hpq, hall]

end

variable (hfloat : ∀ x y : Binary64, x.text = y.text → r.float x = s.float y)

include hfloat

theorem Binding.Alike.relabel_eq {b c : Binding} {vs ws : List Var} {ts us : List ElemType}
    (h : b.Alike c)
    (hv : (b.var :: b.value.vars).map r.var ++ vs = (c.var :: c.value.vars).map s.var ++ ws)
    (hc : b.value.calls.map Prod.snd ++ ts = c.value.calls.map Prod.snd ++ us) :
    b.relabel r = c.relabel s ∧ vs = ws ∧ ts = us := by
  obtain ⟨hvar, hv⟩ := List.cons.inj hv
  obtain ⟨hvalue, hv, hc⟩ := h.2.relabel_eq hfloat hv hc
  refine ⟨?_, hv, hc⟩
  rw [Binding.relabel, Binding.relabel, hvar, hvalue]

/-- **Rows that are alike**, over variables and with types of calls that agree place by place, are
equal. -/
theorem Row.Alike.relabel_eq {a b : Row} {vs ws : List Var} {ts us : List ElemType}
    (h : a.Alike b) (hv : a.vars.map r.var ++ vs = b.vars.map s.var ++ ws)
    (hc : a.calls.map Prod.snd ++ ts = b.calls.map Prod.snd ++ us) :
    a.relabel r = b.relabel s ∧ vs = ws ∧ ts = us := by
  cases a <;> cases b <;> try exact False.elim h
  case loop k i l j =>
    obtain ⟨rfl, -, hparts, htag⟩ := h
    obtain ⟨hvar, hv⟩ := List.cons.inj hv
    obtain ⟨hrange, hv, hc⟩ := hparts.relabel_eq hfloat hv hc
    simp only [Range.parts, List.map_cons, List.map_nil, List.cons.injEq, and_true] at hrange
    refine ⟨?_, hv, hc⟩
    simp only [relabel, LoopIndex.relabel, Range.relabel, Range.mapExprs, hvar, hrange, htag]
  case alloc v shape storage w shape' storage' =>
    obtain ⟨-, -, hshape, rfl⟩ := h
    obtain ⟨hvar, hv⟩ := List.cons.inj hv
    obtain ⟨hshape, hv, hc⟩ := hshape.relabel_eq hfloat hv hc
    refine ⟨?_, hv, hc⟩
    rw [relabel, relabel, hvar, hshape]
  case bind bs cs =>
    obtain ⟨hall, hv, hc⟩ := map_eq_of_alike h (Binding.Alike.relabel_eq hfloat) hv hc
    exact ⟨congrArg bind hall, hv, hc⟩
  case eval e f =>
    obtain ⟨he, hv, hc⟩ := Expr.Alike.relabel_eq hfloat h hv hc
    exact ⟨congrArg eval he, hv, hc⟩
  case store v is e w js f =>
    obtain ⟨-, his, hef⟩ := h
    simp only [vars, calls, List.map_cons, List.map_append, List.cons_append,
      List.append_assoc] at hv hc
    obtain ⟨hvar, hv⟩ := List.cons.inj hv
    obtain ⟨his, hv, hc⟩ := his.relabel_eq hfloat hv hc
    obtain ⟨he, hv, hc⟩ := hef.relabel_eq hfloat hv hc
    refine ⟨?_, hv, hc⟩
    rw [relabel, relabel, hvar, his, he]
  case close => exact ⟨rfl, hv, hc⟩

theorem Buffer.Alike.relabel_eq {b c : Buffer} {vs ws : List Var} {ts us : List ElemType}
    (h : b.Alike c) (hv : (b.var :: Expr.varsAll b.shape).map r.var ++ vs =
      (c.var :: Expr.varsAll c.shape).map s.var ++ ws)
    (hc : (Expr.callsAll b.shape).map Prod.snd ++ ts =
      (Expr.callsAll c.shape).map Prod.snd ++ us) :
    b.relabel r = c.relabel s ∧ vs = ws ∧ ts = us := by
  obtain ⟨hvar, hv⟩ := List.cons.inj hv
  obtain ⟨hshape, hv, hc⟩ := h.shape.relabel_eq hfloat hv hc
  refine ⟨?_, hv, hc⟩
  rw [Buffer.relabel, Buffer.relabel, hvar, hshape]

/-- **Kernels that are alike**, over variables and with types of calls that agree place by place,
have the same parameters and the same rows. -/
theorem Kernel.Alike.relabel_eq {k l : Kernel} (h : k.Alike l)
    (hv : k.vars.map r.var = l.vars.map s.var)
    (hc : k.calls.map Prod.snd = l.calls.map Prod.snd) :
    k.signature.relabel r = l.signature.relabel s ∧
      (k.body.relabel r).rows 0 = (l.body.relabel s).rows 0 := by
  rw [Kernel.vars, Kernel.vars, k.body.vars_eq_rows 0, l.body.vars_eq_rows 0] at hv
  simp only [Kernel.calls, Block.calls, List.map_append, List.append_assoc] at hv hc
  obtain ⟨hbuffers, hv, hc⟩ := map_eq_of_alike h.buffers (Buffer.Alike.relabel_eq hfloat) hv hc
  obtain ⟨hscalars, hv⟩ := List.append_inj hv (by simp [h.scalars.length_eq])
  have hrow : ∀ {p q : Nat × Row} {vs ws : List Var} {ts us : List ElemType},
      p.1 = q.1 ∧ p.2.Alike q.2 → p.2.vars.map r.var ++ vs = q.2.vars.map s.var ++ ws →
      p.2.calls.map Prod.snd ++ ts = q.2.calls.map Prod.snd ++ us →
      (p.1, p.2.relabel r) = (q.1, q.2.relabel s) ∧ vs = ws ∧ ts = us := by
    intro p q vs ws ts us hpq hv hc
    obtain ⟨hrow, hv, hc⟩ := hpq.2.relabel_eq hfloat hv hc
    exact ⟨Prod.ext hpq.1 hrow, hv, hc⟩
  obtain ⟨hrows, -⟩ := map_eq_of_alike h.rows hrow (congrArg (· ++ []) hv) (congrArg (· ++ []) hc)
  refine ⟨?_, ?_⟩
  · rw [Signature.relabel, Signature.relabel, h.name, hbuffers, hscalars]
  · rw [Block.rows_relabel, Block.rows_relabel, hrows]

end

/-! ## Canonical variables -/

/-- Variables numbered by their first places in a list, those beyond it behind it. A floating-point
literal becomes the one that was chosen for its text. -/
noncomputable def Relabelling.canonical (vs : List Var) : Relabelling where
  var v := { v with id := if v ∈ vs then vs.idxOf v else vs.length + v.id }
  float x := Set.rangeSplitting Binary64.text ⟨x.text, x, rfl⟩
  injective v w h := by
    obtain ⟨hid, hname, htype⟩ := Var.mk.inj h
    by_cases hv : v ∈ vs <;> by_cases hw : w ∈ vs
    · rw [if_pos hv, if_pos hw] at hid
      exact (List.idxOf_inj hv).1 hid
    · have := List.idxOf_lt_length_of_mem hv
      rw [if_pos hv, if_neg hw] at hid
      omega
    · have := List.idxOf_lt_length_of_mem hw
      rw [if_neg hv, if_pos hw] at hid
      omega
    · rw [if_neg hv, if_neg hw] at hid
      cases v
      cases w
      simp_all
  name_var _ := rfl
  type_var _ := rfl
  text_float x := Set.apply_rangeSplitting Binary64.text ⟨x.text, x, rfl⟩
  textC_float x :=
    Binary64.textC_eq_of_text_eq (Set.apply_rangeSplitting Binary64.text ⟨x.text, x, rfl⟩)

/-- Lists of the same names, types and first places are one list of canonical variables. -/
theorem Relabelling.map_canonical {vs ws : List Var} (hnames : vs.map Var.name = ws.map Var.name)
    (h : vs.map (fun v => (v.type, vs.idxOf v)) = ws.map fun w => (w.type, ws.idxOf w)) :
    vs.map (canonical vs).var = ws.map (canonical ws).var := by
  have hzip : ∀ vs : List Var, vs.map (canonical vs).var =
      ((vs.map Var.name).zip (vs.map fun v => (v.type, vs.idxOf v))).map
        fun p => ⟨p.2.2, p.1, p.2.1⟩ := by
    intro vs
    rw [List.zip_map', List.map_map]
    refine List.map_congr_left fun v hv => ?_
    simp [canonical, hv]
  rw [hzip, hzip, hnames, h]

/-! ## Sources -/

/-- What the identity of a kernel leaves out: for each place where a variable stands, its type and
its first place, and the types of calls. -/
def Kernel.hidden (k : Kernel) : List (ElemType × Nat) × List ElemType :=
  (k.vars.map fun v => (v.type, k.vars.idxOf v), k.calls.map Prod.snd)

/-- **The identity and what it leaves out determine the source.** Kernels whose names look like
names, with one identity, and with variables and calls of the same types and the same variables at
the same places, are both refused or have one source, for every target. -/
theorem source_eq_of_identity_eq {k l : Kernel} (hk : k.Legible) (hl : l.Legible)
    (h : k.identity = l.identity) (hhidden : k.hidden = l.hidden) (target : Target) :
    (target.emitFunction k.signature k.body).toOption =
      (target.emitFunction l.signature l.body).toOption := by
  have hrelabel : ∀ (r : Relabelling) (k : Kernel),
      (target.emitFunction (k.signature.relabel r) (k.body.relabel r)).toOption =
        (target.emitFunction k.signature k.body).toOption := by
    intro r k
    rw [Target.emitFunction_relabel]
    cases target.emitFunction k.signature k.body <;> rfl
  have halike : k.Alike l := Kernel.alike_of_identity_eq hk hl h
  obtain ⟨hvars, hcalls⟩ := Prod.mk.inj hhidden
  have hfloat : ∀ x y : Binary64, x.text = y.text →
      (Relabelling.canonical k.vars).float x = (Relabelling.canonical l.vars).float y := by
    intro x y hxy
    simp only [Relabelling.canonical, hxy]
  obtain ⟨hsignature, hrows⟩ := halike.relabel_eq hfloat
    (Relabelling.map_canonical halike.names hvars) hcalls
  rw [← hrelabel (.canonical k.vars) k, ← hrelabel (.canonical l.vars) l, hsignature,
    target.emitFunction_congr hrows]

/-- Two loops of one index name, with a constant in the first, and a last store. Variables are
numbered from `base` on, and `join` puts the three together. -/
def loopsKernel (base : Nat) (join : Block → Block → Block → Block) : Kernel :=
  let n : Var := ⟨base, "n", .int32⟩
  let out : Var := ⟨base + 1, "out", .float32⟩
  let i : Var := ⟨base + 2, "i", .int32⟩
  let t : Var := ⟨base + 3, "t", .float32⟩
  let j : Var := ⟨base + 4, "i", .int32⟩
  ⟨⟨"loops", [⟨out, [.var n]⟩], [n]⟩,
    join
      (.loop .spatial ⟨i, ⟨.int 0, .var n, .int 1⟩, ""⟩
        (.bind [⟨t, .call .float32 "f" [.var i]⟩] (.store out [.var i] (.var t + .var t))))
      (.loop .spatial ⟨j, ⟨.int 0, .var n, .int 1⟩, "tail"⟩ (.store out [.var j] (.var j)))
      (.store out [.int 0] (.str "a, b")), none⟩

theorem source_eq_of_identity_eq_loops :
    ∃ k l : Kernel, k.body ≠ l.body ∧ k.Legible ∧ l.Legible ∧ k.identity = l.identity ∧
      k.hidden = l.hidden ∧ (Target.portable.emitFunction k.signature k.body).isOk = true ∧
      (Target.portable.emitFunction k.signature k.body).toOption =
        (Target.portable.emitFunction l.signature l.body).toOption := by
  let k := loopsKernel 0 fun a b c => .seq (.seq a b) c
  let l := loopsKernel 9 fun a b c => .seq a (.seq b c)
  have hk : k.Legible := ⟨by decide, by decide, by decide, by decide⟩
  have hl : l.Legible := ⟨by decide, by decide, by decide, by decide⟩
  exact ⟨k, l, by decide, hk, hl, rfl, rfl, rfl, source_eq_of_identity_eq hk hl rfl rfl .portable⟩

/-- A constant is set to the value of a function and added to itself. -/
def constantKernel (t : ElemType) : Kernel :=
  let c : Var := ⟨1, "t", t⟩
  ⟨⟨"k", [⟨⟨0, "A", .float64⟩, [.int 4]⟩], []⟩,
    .bind [⟨c, .call t "f" []⟩] (.store ⟨0, "A", .float64⟩ [.int 0] (.var c + .var c)), none⟩

/-- The identity alone does not determine the source: it does not show the type of a constant. -/
theorem not_source_eq_of_identity_eq : ¬∀ (k l : Kernel) (target : Target),
    k.identity = l.identity → (target.emitFunction k.signature k.body).toOption =
      (target.emitFunction l.signature l.body).toOption := by
  intro h
  have hsource := h (constantKernel .int32) (constantKernel .float32) .portable rfl
  exact absurd hsource (by decide)

end LoopNest
