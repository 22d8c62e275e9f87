import LoopNest.Kernel.Identity
import LoopNest.Proofs.RenamedTraces

/-!
# Source and identity over other variables

Identifiers are handed out in the order in which variables appear, and display names show no
numbers. So the source of a kernel over relabelled variables is the same text, for every target, and
so is what the kernel is known by if every variable has a name.

* `C.Stmt.relabel`, `C.Ranks.relabel`, `C.Names.relabel`: what is emitted;
* **`Block.relabel_toC`**: what a target accepts;
* **`Target.emit_relabel`**, **`Target.emitFunction_relabel`**: the source;
* **`Block.text_relabel`**, **`Kernel.identity_relabel`**: the printed block, and the identity.
-/

namespace LoopNest

section

variable (r : Relabelling)

/-! ## Statements that C can express -/

namespace C

/-- A counted loop over other variables. -/
def Loop.relabel (l : Loop) : Loop :=
  { l with var := r.var l.var, first := l.first.relabel r, bound := l.bound.relabel r }

/-- A C statement over other variables. -/
def Stmt.relabel : Stmt → Stmt
  | skip => skip
  | seq a b => seq a.relabel b.relabel
  | loop head body => loop (head.relabel r) body.relabel
  | array v shape storage body => array (r.var v) (shape.map (Expr.relabel r)) storage body.relabel
  | consts bs body => consts (bs.map (Binding.relabel r)) body.relabel
  | eval e => eval (e.relabel r)
  | assign v is e => assign (r.var v) (is.map (Expr.relabel r)) (e.relabel r)

/-- Ranks of local arrays over other variables. -/
def Ranks.relabel (ranks : Ranks) : Ranks := ranks.map fun p => (r.var p.1, p.2)

theorem Ranks.relabel_check (ranks : Ranks) (v : Var) (n : Nat) :
    (ranks.relabel r).check (r.var v) n = exchange (Construct.relabel r) id (ranks.check v n) := by
  have hfind : (ranks.relabel r).find? (r.var v) = ranks.find? v :=
    (find?_map_keys r.injective id ranks v).trans (Option.map_id ▸ rfl)
  rw [check, hfind, check]
  split <;> rfl

end C

namespace Expr

theorem relabel_checkAllC {ranks : C.Ranks} {es : List Expr}
    (h : ∀ e ∈ es, (e.relabel r).checkC (ranks.relabel r) =
      exchange (Construct.relabel r) id (e.checkC ranks)) :
    checkAllC (ranks.relabel r) (es.map (relabel r)) =
      exchange (Construct.relabel r) id (checkAllC ranks es) := by
  induction es with
  | nil => rfl
  | cons e es ih =>
    obtain ⟨he, hes⟩ := List.forall_mem_cons.1 h
    rw [List.map_cons, checkAllC, checkAllC]
    exact exchange_bind he fun _ => ih hes

theorem relabel_checkC (ranks : C.Ranks) (e : Expr) :
    (e.relabel r).checkC (ranks.relabel r) =
      exchange (Construct.relabel r) id (e.checkC ranks) := by
  induction e using inductionOn with
  | int | float | str | var => rfl
  | binary op a b iha ihb =>
    rw [relabel_binary, checkC, checkC]
    refine exchange_bind iha fun _ => exchange_bind ihb fun _ => ?_
    rw [type_relabel, type_relabel]
    split <;> rfl
  | cast t a iha => exact iha
  | load v is ih =>
    rw [relabel_load, checkC, checkC, List.length_map]
    exact exchange_bind (C.Ranks.relabel_check r ranks v _) fun _ => relabel_checkAllC r ih
  | call t f as ih =>
    rw [relabel_call, checkC, checkC]
    exact relabel_checkAllC r ih

end Expr

theorem LoopIndex.relabel_toC (zigzag : Bool) (k : LoopKind) (i : LoopIndex) :
    (i.relabel r).toC zigzag k =
      exchange (Construct.relabel r) (C.Loop.relabel r) (i.toC zigzag k) := by
  have hstep : (i.relabel r).stepC = exchange (Construct.relabel r) id i.stepC := by
    have hliteral : (i.relabel r).range.step.literal? = i.range.step.literal? :=
      Expr.literal?_relabel r i.range.step
    rw [stepC, hliteral, stepC]
    split
    · rfl
    · split <;> rfl
  have hbound : ∀ s : Word, (i.relabel r).range.bound s = (i.range.bound s).relabel r :=
    fun s => Expr.relabel_fold r (i.range.first + i.range.extent * Expr.int s)
  rw [toC, toC]
  by_cases hzigzag : k = .zigzag ∧ zigzag = false
  · rw [if_pos hzigzag, if_pos hzigzag]
    rfl
  · rw [if_neg hzigzag, if_neg hzigzag]
    refine exchange_bind hstep fun s => ?_
    simp only [id_eq, hbound]
    rfl

namespace Block

theorem ranks_relabel (known : C.Ranks) (b : Block) :
    (b.relabel r).ranks (known.relabel r) = (b.ranks known).relabel r := by
  induction b generalizing known with
  | seq a b iha ihb => rw [relabel, ranks, iha, ihb, ranks]
  | loop k i body ih | bind bs body ih => exact ih known
  | alloc v shape storage body ih =>
    rw [relabel, ranks, List.length_map]
    exact ih ((v, shape.length) :: known)
  | eval | store => rfl

theorem isNop_relabel (e : Expr) : isNop (eval (e.relabel r)) = isNop (eval e) := by
  cases e with
  | int | float | str | var | binary | cast => rfl
  | load | call => simp [isNop]

/-- **What a target accepts, and how.** -/
theorem relabel_toC (zigzag : Bool) (known : C.Ranks) (b : Block) :
    (b.relabel r).toC zigzag (known.relabel r) =
      exchange (Construct.relabel r) (C.Stmt.relabel r) (b.toC zigzag known) := by
  have hall : ∀ (known : C.Ranks) (es : List Expr),
      Expr.checkAllC (known.relabel r) (es.map (Expr.relabel r)) =
        exchange (Construct.relabel r) id (Expr.checkAllC known es) := fun known es =>
    Expr.relabel_checkAllC r fun e _ => Expr.relabel_checkC r known e
  induction b generalizing known with
  | seq a b iha ihb =>
    rw [relabel, toC, ranks_relabel, toC]
    exact exchange_bind (iha known) fun _ => exchange_bind (ihb _) fun _ => rfl
  | loop k i body ih =>
    rw [relabel, toC, toC]
    exact exchange_bind (LoopIndex.relabel_toC r zigzag k i) fun head =>
      exchange_bind (Expr.relabel_checkC r known head.first) fun _ =>
        exchange_bind (Expr.relabel_checkC r known head.bound) fun _ =>
          exchange_bind (ih known) fun _ => rfl
  | alloc v shape storage body ih =>
    rw [relabel, toC, toC, List.length_map]
    exact exchange_bind (hall known shape) fun _ =>
      exchange_bind (ih ((v, shape.length) :: known)) fun _ => rfl
  | bind bs body ih =>
    have hvalues : (bs.map (Binding.relabel r)).map Binding.value =
        (bs.map Binding.value).map (Expr.relabel r) := by
      rw [List.map_map, List.map_map]
      rfl
    rw [relabel, toC, toC, hvalues]
    exact exchange_bind (hall known _) fun _ => exchange_bind (ih known) fun _ => rfl
  | eval e =>
    rw [relabel, toC, toC, isNop_relabel]
    by_cases hnop : isNop (eval e) = true
    · rw [if_pos hnop, if_pos hnop]
      rfl
    · rw [if_neg hnop, if_neg hnop]
      exact exchange_bind (Expr.relabel_checkC r known e) fun _ => rfl
  | store v is e =>
    rw [relabel, toC, toC, List.length_map]
    exact exchange_bind (C.Ranks.relabel_check r known v _) fun _ =>
      exchange_bind (hall known is) fun _ =>
        exchange_bind (Expr.relabel_checkC r known e) fun _ => rfl

end Block

/-! ## Names -/

namespace C

theorem Stmt.vars_relabel (s : Stmt) : (s.relabel r).vars = s.vars.map r.var := by
  have hall : ∀ es : List Expr,
      Expr.varsAll (es.map (Expr.relabel r)) = (Expr.varsAll es).map r.var :=
    fun es => Expr.varsAll_map r fun e _ => Expr.vars_relabel r e
  induction s with
  | skip => rfl
  | seq a b iha ihb => rw [relabel, vars, vars, iha, ihb, List.map_append]
  | loop head body ih =>
    simp only [relabel, Loop.relabel, vars, ih, Expr.vars_relabel, List.map_cons, List.map_append]
  | array v shape storage body ih => simp only [relabel, vars, ih, hall, List.map_cons,
      List.map_append]
  | consts bs body ih =>
    simp only [relabel, vars, ih, List.map_append, List.flatMap_map, List.map_flatMap,
      Binding.relabel, Expr.vars_relabel, List.map_cons, List.map_nil]
  | eval e => exact Expr.vars_relabel r e
  | assign v is e => simp only [relabel, vars, hall, Expr.vars_relabel, List.map_cons,
      List.map_append]

namespace Names

/-- Identifiers of other variables. -/
def relabel (n : Names) : Names := { n with given := n.given.map fun p => (r.var p.1, p.2) }

theorem find?_relabel (n : Names) (v : Var) : (n.relabel r).find? (r.var v) = n.find? v :=
  (find?_map_keys r.injective id n.given v).trans (Option.map_id ▸ rfl)

theorem relabel_add (n : Names) (v : Var) : (n.relabel r).add (r.var v) = (n.add v).relabel r := by
  rw [add, find?_relabel, add]
  cases n.find? v with
  | some _ => rfl
  | none =>
    dsimp only
    rw [r.name_var]
    rfl

theorem relabel_addAll (n : Names) (vs : List Var) :
    (n.relabel r).addAll (vs.map r.var) = (n.addAll vs).relabel r := by
  induction vs generalizing n with
  | nil => rfl
  | cons v vs ih =>
    rw [List.map_cons, addAll, List.foldl_cons, relabel_add]
    exact ih (n.add v)

/-- A variable has the identifier of the variable that it stands for. -/
theorem of_addAll_relabel {n : Names} (h : n.given = []) (vs : List Var) (v : Var) :
    (n.addAll (vs.map r.var)).of (r.var v) = (n.addAll vs).of v := by
  have hn : n.relabel r = n := by
    obtain ⟨given, taken⟩ := n
    obtain rfl : given = [] := h
    rfl
  rw [← hn, relabel_addAll, of, find?_relabel, hn, of]

end Names

end C

/-! ## Source -/

namespace Expr

variable {r} {target : Target} {names names' : Var → String}

theorem textsC_map {f : Expr → Expr} {es : List Expr}
    (h : ∀ e ∈ es, (f e).textC target names' = e.textC target names) :
    textsC target names' (es.map f) = textsC target names es := by
  induction es with
  | nil => rfl
  | cons e es ih =>
    obtain ⟨he, hes⟩ := List.forall_mem_cons.1 h
    rw [List.map_cons, textsC, textsC, he, ih hes]

theorem textC_relabel (h : ∀ v, names' (r.var v) = names v) (e : Expr) :
    (e.relabel r).textC target names' = e.textC target names := by
  induction e using inductionOn with
  | int | str => rfl
  | float x => exact r.textC_float x
  | var v => exact h v
  | binary op a b iha ihb => rw [relabel_binary, textC, textC, iha, ihb]
  | cast t a iha => rw [relabel_cast, textC, textC, iha]
  | load v is ih => rw [relabel_load, textC, textC, h, textsC_map ih]
  | call t f as ih => rw [relabel_call, textC, textC, textsC_map ih]

theorem anyNeeds_map {f : Expr → Expr} {routine : C.Routine} {es : List Expr}
    (h : ∀ e ∈ es, (f e).needs routine = e.needs routine) :
    anyNeeds routine (es.map f) = anyNeeds routine es := by
  induction es with
  | nil => rfl
  | cons e es ih =>
    obtain ⟨he, hes⟩ := List.forall_mem_cons.1 h
    rw [List.map_cons, anyNeeds, anyNeeds, he, ih hes]

theorem needs_relabel (routine : C.Routine) (e : Expr) :
    (e.relabel r).needs routine = e.needs routine := by
  induction e using inductionOn with
  | int | float | str | var => rfl
  | binary op a b iha ihb => rw [relabel_binary, needs, needs, iha, ihb]
  | cast t a iha => exact iha
  | load v is ih => rw [relabel_load, needs, needs, anyNeeds_map ih]
  | call t f as ih => rw [relabel_call, needs, needs, anyNeeds_map ih]

end Expr

namespace C

theorem Stmt.routines_relabel (s : Stmt) : (s.relabel r).routines = s.routines := by
  have hneeds : ∀ routine, (s.relabel r).needs routine = s.needs routine := by
    intro routine
    have hall : ∀ es : List Expr,
        Expr.anyNeeds routine (es.map (Expr.relabel r)) = Expr.anyNeeds routine es :=
      fun es => Expr.anyNeeds_map fun e _ => Expr.needs_relabel routine e
    induction s with
    | skip => rfl
    | seq a b iha ihb => rw [relabel, needs, needs, iha, ihb]
    | loop head body ih => simp only [relabel, Loop.relabel, needs, ih, Expr.needs_relabel]
    | array v shape storage body ih => simp only [relabel, needs, ih, hall]
    | consts bs body ih =>
      simp only [relabel, needs, ih, List.any_map, Function.comp_def, Binding.relabel,
        Expr.needs_relabel]
    | eval e => exact Expr.needs_relabel routine e
    | assign v is e => simp only [relabel, needs, hall, Expr.needs_relabel]
  rw [routines, routines]
  exact congrArg (fun p => Routine.all.filter p) (funext hneeds)

theorem Loop.header_relabel {target : Target} {names names' : Var → String}
    (h : ∀ v, names' (r.var v) = names v) (l : Loop) :
    (l.relabel r).header target names' = l.header target names := by
  have hvar : names' (l.relabel r).var = names l.var := h l.var
  have hfirst : (l.relabel r).first.textC target names' = l.first.textC target names :=
    Expr.textC_relabel h l.first
  have hbound : (l.relabel r).bound.textC target names' = l.bound.textC target names :=
    Expr.textC_relabel h l.bound
  have hstep : (l.relabel r).step = l.step := rfl
  have hcomparison : (l.relabel r).comparison = l.comparison := by
    rw [comparison, hstep, comparison]
  have hadvance : ∀ c, (l.relabel r).advance c = l.advance c := fun c => by
    rw [advance, hstep, advance]
  unfold header
  rw [hvar, hfirst, hbound, hcomparison]
  simp only [hadvance]

theorem Stmt.lines_relabel {target : Target} {names names' : Var → String}
    (h : ∀ v, names' (r.var v) = names v) (depth : Nat) (s : Stmt) :
    (s.relabel r).lines target names' depth = s.lines target names depth := by
  have htext : ∀ e : Expr, (e.relabel r).textC target names' = e.textC target names :=
    Expr.textC_relabel h
  have hall : ∀ es : List Expr,
      Expr.textsC target names' (es.map (Expr.relabel r)) = Expr.textsC target names es :=
    fun es => Expr.textsC_map fun e _ => htext e
  induction s generalizing depth with
  | skip => rfl
  | seq a b iha ihb => rw [relabel, lines, lines, iha, ihb]
  | loop head body ih =>
    have hkind : (head.relabel r).kind = head.kind := rfl
    have hnote : (head.relabel r).note = head.note := rfl
    simp only [relabel, lines, Loop.header_relabel r h, hkind, hnote, ih]
  | array v shape storage body ih =>
    simp only [relabel, lines, declaration, ih, hall, h, r.type_var]
  | consts bs body ih =>
    simp only [relabel, lines, ih, List.map_map, Function.comp_def, Binding.relabel, constant,
      htext, h, r.type_var]
  | eval e => simp only [relabel, lines, htext]
  | assign v is e => simp only [relabel, lines, hall, htext, h]

theorem function_relabel (target : Target) (g : Signature) (s : Stmt) :
    function target (g.relabel r) (s.relabel r) = function target g s := by
  -- the name of the function is taken, but no variable has an identifier yet
  have hempty : (Names.empty.reserve g.name).2.given = [] := rfl
  have hvars : (g.relabel r).buffers.map Buffer.var ++ (g.relabel r).scalars ++ (s.relabel r).vars =
      (g.buffers.map Buffer.var ++ g.scalars ++ s.vars).map r.var := by
    simp only [Signature.relabel, Stmt.vars_relabel, List.map_append, List.map_map]
    rfl
  have hnames := Names.of_addAll_relabel r hempty (g.buffers.map Buffer.var ++ g.scalars ++ s.vars)
  rw [← hvars] at hnames
  have hbuffers : (g.relabel r).buffers.map (fun b => bufferParam target
      (((Names.empty.reserve g.name).2.addAll ((g.relabel r).buffers.map Buffer.var ++
        (g.relabel r).scalars ++ (s.relabel r).vars)).of) b.var) =
      g.buffers.map fun b => bufferParam target (((Names.empty.reserve g.name).2.addAll
        (g.buffers.map Buffer.var ++ g.scalars ++ s.vars)).of) b.var := by
    rw [Signature.relabel, List.map_map]
    refine List.map_congr_left fun b _ => ?_
    simp only [Function.comp_apply, Buffer.relabel, bufferParam, r.type_var, ← hnames]
    rfl
  have hscalars : (g.relabel r).scalars.map (scalarParam target
      (((Names.empty.reserve g.name).2.addAll ((g.relabel r).buffers.map Buffer.var ++
        (g.relabel r).scalars ++ (s.relabel r).vars)).of)) =
      g.scalars.map (scalarParam target (((Names.empty.reserve g.name).2.addAll
        (g.buffers.map Buffer.var ++ g.scalars ++ s.vars)).of)) := by
    rw [Signature.relabel, List.map_map]
    refine List.map_congr_left fun v _ => ?_
    simp only [Function.comp_apply, scalarParam, r.type_var, ← hnames]
    rfl
  have hname : (g.relabel r).name = g.name := rfl
  simp only [function, hname]
  rw [hbuffers, hscalars, Stmt.routines_relabel, Stmt.lines_relabel r hnames]

end C

namespace Target

variable (target : Target)

theorem relabel_accept (b : Block) :
    target.accept (b.relabel r) =
      exchange (Error.relabel r) (C.Stmt.relabel r) (target.accept b) := by
  have htoC := Block.relabel_toC r target.supportsZigzag [] b
  rw [accept, accept]
  change (b.relabel r).toC target.supportsZigzag [] = _ at htoC
  rw [htoC]
  cases b.toC target.supportsZigzag [] <;> rfl

/-- **Statements are the same text.** -/
theorem emit_relabel (b : Block) :
    target.emit (b.relabel r) = exchange (Error.relabel r) id (target.emit b) := by
  refine exchange_bind (relabel_accept r target b) fun s => ?_
  have hnames := C.Names.of_addAll_relabel r (n := .empty) rfl s.vars
  rw [← C.Stmt.vars_relabel] at hnames
  dsimp only
  rw [C.Stmt.lines_relabel r hnames]
  rfl

/-- **A kernel is the same text.** -/
theorem emitFunction_relabel (g : Signature) (b : Block) :
    target.emitFunction (g.relabel r) (b.relabel r) =
      exchange (Error.relabel r) id (target.emitFunction g b) := by
  refine exchange_bind (relabel_accept r target b) fun s => ?_
  rw [C.function_relabel]
  rfl

end Target

/-! ## Printed blocks and identities -/

theorem Var.text_relabel {v : Var} (h : v.name ≠ "") : (r.var v).text = v.text := by
  have hempty : v.name.isEmpty = false := by simpa using h
  rw [text, text, r.name_var, hempty]
  rfl

namespace Expr

theorem texts_map {f : Expr → Expr} {es : List Expr} (h : ∀ e ∈ es, (f e).text = e.text) :
    texts (es.map f) = texts es := by
  rw [texts_eq_map, texts_eq_map, List.map_map]
  exact List.map_congr_left h

theorem text_relabel {e : Expr} (h : ∀ v ∈ e.vars, v.name ≠ "") :
    (e.relabel r).text = e.text := by
  induction e using inductionOn with
  | int | str => rfl
  | float x => exact r.text_float x
  | var v => exact Var.text_relabel r (h v List.mem_cons_self)
  | binary op a b iha ihb =>
    obtain ⟨ha, hb⟩ := List.forall_mem_append.1 h
    rw [relabel_binary]
    cases op <;> simp only [text, iha ha, ihb hb]
  | cast t a iha => rw [relabel_cast, text, text, iha h]
  | load v is ih =>
    rw [vars, varsAll_eq_flatMap, List.forall_mem_cons, List.forall_mem_flatMap] at h
    rw [relabel_load, text, text, Var.text_relabel r h.1, texts_map fun i hi => ih i hi (h.2 i hi)]
  | call t f as ih =>
    rw [vars, varsAll_eq_flatMap, List.forall_mem_flatMap] at h
    rw [relabel_call, text, text, texts_map fun a ha => ih a ha (h a ha)]

theorem texts_relabel {es : List Expr} (h : ∀ v ∈ varsAll es, v.name ≠ "") :
    texts (es.map (relabel r)) = texts es := by
  rw [varsAll_eq_flatMap, List.forall_mem_flatMap] at h
  exact texts_map fun e he => text_relabel r (h e he)

end Expr

theorem LoopIndex.header_relabel {k : LoopKind} {i : LoopIndex} (hv : i.var.name ≠ "")
    (h : ∀ v ∈ i.range.vars, v.name ≠ "") : (i.relabel r).header k = i.header k := by
  rw [Range.vars, List.forall_mem_append, List.forall_mem_append] at h
  have hrange : (i.range.relabel r).text = i.range.text := by
    simp only [Range.text, Range.relabel, Range.mapExprs, Expr.text_relabel r h.1.1,
      Expr.text_relabel r h.1.2, Expr.text_relabel r h.2]
  simp only [header, relabel, hrange, Var.text_relabel r hv]
  rfl

theorem Binding.text_relabel {b : Binding} (hv : b.var.name ≠ "")
    (h : ∀ v ∈ b.value.vars, v.name ≠ "") : (b.relabel r).text = b.text := by
  rw [text, text, relabel, Var.text_relabel r hv, Expr.text_relabel r h]

namespace Block

theorem lines_relabel (depth : Nat) {b : Block} (h : ∀ v ∈ b.vars, v.name ≠ "") :
    (b.relabel r).lines depth = b.lines depth := by
  induction b generalizing depth with
  | seq a b iha ihb =>
    obtain ⟨ha, hb⟩ := List.forall_mem_append.1 h
    rw [relabel, lines, lines, iha depth ha, ihb depth hb]
  | loop k i body ih =>
    obtain ⟨hv, h⟩ := List.forall_mem_cons.1 h
    obtain ⟨hrange, hbody⟩ := List.forall_mem_append.1 h
    rw [relabel, lines, lines, LoopIndex.header_relabel r hv hrange, ih _ hbody]
  | alloc v shape storage body ih =>
    obtain ⟨hv, h⟩ := List.forall_mem_cons.1 h
    obtain ⟨hshape, hbody⟩ := List.forall_mem_append.1 h
    simp only [relabel, lines, Expr.listing, Var.text_relabel r hv, Expr.texts_relabel r hshape,
      r.type_var, ih _ hbody]
  | bind bs body ih =>
    obtain ⟨hbs, hbody⟩ := List.forall_mem_append.1 h
    have htexts : (bs.map (Binding.relabel r)).map Binding.text = bs.map Binding.text := by
      rw [List.map_map]
      refine List.map_congr_left fun c hc => ?_
      obtain ⟨hv, hvalue⟩ := List.forall_mem_cons.1 (List.forall_mem_flatMap.1 hbs c hc)
      exact Binding.text_relabel r hv hvalue
    rw [relabel, lines, lines, htexts, ih _ hbody]
  | eval e => simp only [relabel, lines, isNop_relabel, Expr.text_relabel r h]
  | store v is e =>
    obtain ⟨hv, h⟩ := List.forall_mem_cons.1 h
    obtain ⟨his, he⟩ := List.forall_mem_append.1 h
    simp only [relabel, lines, Expr.listing, Var.text_relabel r hv, Expr.texts_relabel r his,
      Expr.text_relabel r he]

/-- **A block whose variables have names is printed the same.** -/
theorem text_relabel {b : Block} (h : ∀ v ∈ b.vars, v.name ≠ "") :
    (b.relabel r).text = b.text := by
  rw [text, lines_relabel r 0 h, text]

end Block

/-- **A kernel whose variables have names is known by the same text.** -/
theorem Kernel.identity_relabel {k : Kernel} (h : ∀ v ∈ k.vars, v.name ≠ "") :
    (k.relabel r).identity = k.identity := by
  obtain ⟨h, hbody⟩ := List.forall_mem_append.1 h
  obtain ⟨hbuffers, hscalars⟩ := List.forall_mem_append.1 h
  have hbufferTexts : (k.relabel r).signature.buffers.map bufferText =
      k.signature.buffers.map bufferText := by
    change (k.signature.buffers.map (Buffer.relabel r)).map bufferText = _
    rw [List.map_map]
    refine List.map_congr_left fun b hb => ?_
    obtain ⟨hv, hshape⟩ := List.forall_mem_cons.1 (List.forall_mem_flatMap.1 hbuffers b hb)
    simp only [Function.comp_apply, bufferText, Buffer.relabel, Var.text_relabel r hv,
      Expr.texts_relabel r hshape, r.type_var]
  have hscalarTexts : (k.relabel r).signature.scalars.map scalarText =
      k.signature.scalars.map scalarText := by
    change (k.signature.scalars.map r.var).map scalarText = _
    rw [List.map_map]
    refine List.map_congr_left fun v hv => ?_
    simp only [Function.comp_apply, scalarText, Var.text_relabel r (hscalars v hv), r.type_var]
  have htext : (k.relabel r).body.text = k.body.text := Block.text_relabel r hbody
  have hname : (k.relabel r).signature.name = k.signature.name := rfl
  rw [identity, hbufferTexts, hscalarTexts, htext, hname, identity]

end

end LoopNest
