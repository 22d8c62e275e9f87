import LoopNest.Kernel.Build
import LoopNest.Proofs.Folding

/-!
# What a target accepts

A block is accepted if each of its loops, accesses and divisions can be expressed in C. That is a
fact about the block and the ranks of its local arrays; of the target it asks only whether there are
zigzag loops. Folding never makes a block worse.

* `Block.Expressible`: the block can be expressed in C, with one equivalence for each statement;
* `Block.zigzags`: the variables of zigzag loops;
* **`Expr.fold_fold`**, **`Range.bound_fold`**: folding twice, and the bound of a folded loop;
* **`Expr.checkC_fold`**, **`Block.Expressible.fold`**: folded expressions and blocks;
* **`fold_keeps_accepted`**: a folded block is accepted by every target that accepts the block;
* **`Block.toC_without_zigzag`**: the first zigzag loop is all that can be refused in addition;
* **`acceptance_by_zigzag`**: targets that agree on zigzag loops accept the same blocks.
-/

namespace LoopNest

/-! ## Expressions of C -/

namespace Expr

section

variable {ranks : C.Ranks} {op : Operator} {a b : Expr} {es : List Expr} {v : Var} {t : ElemType}
  {f : String}

/-- The operator is one of the two divisions, and an operand is a floating-point number. -/
def DividesFloats (op : Operator) (a b : Expr) : Prop :=
  (op = .floorDiv ∨ op = .floorMod) ∧ (a.type.isFloat = true ∨ b.type.isFloat = true)

theorem checkC_binary_iff : (binary op a b).checkC ranks = .ok () ↔
    a.checkC ranks = .ok () ∧ b.checkC ranks = .ok () ∧ ¬DividesFloats op a b := by
  unfold DividesFloats
  rw [checkC, bind_eq_ok_iff]
  constructor
  · rintro ⟨⟨⟩, ha, h⟩
    obtain ⟨⟨⟩, hb, h⟩ := bind_eq_ok_iff.1 h
    split at h
    · exact nomatch h
    · next hfloat => exact ⟨ha, hb, hfloat⟩
  · rintro ⟨ha, hb, hfloat⟩
    refine ⟨(), ha, bind_eq_ok_iff.2 ⟨(), hb, ?_⟩⟩
    rw [if_neg hfloat]
    rfl

theorem checkAllC_iff : checkAllC ranks es = .ok () ↔ ∀ e ∈ es, e.checkC ranks = .ok () := by
  induction es with
  | nil => exact ⟨fun _ => List.forall_mem_nil _, fun _ => rfl⟩
  | cons e es ih =>
    rw [checkAllC, bind_eq_ok_iff, List.forall_mem_cons, ih]
    exact ⟨fun ⟨_, h⟩ => h, fun h => ⟨(), h⟩⟩

theorem checkC_load_iff : (load v es).checkC ranks = .ok () ↔
    ranks.check v es.length = .ok () ∧ ∀ e ∈ es, e.checkC ranks = .ok () := by
  rw [checkC, bind_eq_ok_iff, checkAllC_iff]
  exact ⟨fun ⟨_, h⟩ => h, fun h => ⟨(), h⟩⟩

theorem checkC_call_iff : (call t f es).checkC ranks = .ok () ↔
    ∀ e ∈ es, e.checkC ranks = .ok () := checkAllC_iff

end

/-! ## Folded expressions of C -/

/-- **Folding a folded expression changes nothing.** -/
theorem fold_fold (e : Expr) : e.fold.fold = e.fold := by
  have hlist : ∀ {es : List Expr}, (∀ e ∈ es, e.fold.fold = e.fold) →
      (es.map fold).map fold = es.map fold := by
    intro es hes
    rw [List.map_map]
    exact List.map_congr_left hes
  induction e using inductionOn with
  | int | float | str | var => rfl
  | binary op a b iha ihb =>
    have hfolded := folded_foldOperation op a.fold b.fold
    rw [fold_binary]
    generalize he : foldOperation op a.fold b.fold = e at hfolded
    cases hfolded with
    | node => rw [fold_binary, iha, ihb, he]
    | literal => rfl
    | identity _ _ hid =>
      obtain rfl | rfl | rfl := hid.mem
      · exact iha
      · exact ihb
      · rfl
  | cast t a iha => rw [fold_cast, fold_cast, iha]
  | load v is ih => rw [fold_load, fold_load, hlist ih]
  | call t f as ih => rw [fold_call, fold_call, hlist ih]

section

variable {op : Operator} {a b c d e : Expr}

/-- An operator on operands of the same classes keeps its class when it is folded, whatever the
operands are. -/
theorem Folded.type_class (h : Folded op c d e)
    (hc : c.type.isInt = a.type.isInt ∧ c.type.isFloat = a.type.isFloat) :
    e.type.isInt = (binary op a b).type.isInt ∧ e.type.isFloat = (binary op a b).type.isFloat := by
  have hint : op.compares = false → c.type.isInt = true → ∀ {e : Expr}, e.type.isInt = true →
      e.type.isInt = (binary op a b).type.isInt ∧
        e.type.isFloat = (binary op a b).type.isFloat := by
    intro hop hci e he
    have hai : a.type.isInt = true := hc.1 ▸ hci
    simp [type, hop, hai, he, ElemType.not_isFloat_of_isInt]
  cases h with
  | node => cases hop : op.compares <;> simp [type, hop, hc]
  | literal hm hn hr =>
    subst hm
    exact hint (Operator.not_compares_of_fold? hr) rfl rfl
  | identity hci hdi hid =>
    obtain rfl | rfl | rfl := hid.mem
    · exact hint hid.not_compares hci hci
    · exact hint hid.not_compares hci hdi
    · exact hint hid.not_compares hci rfl

end

/-- **Folding keeps the class of the type.** -/
theorem type_class_fold (e : Expr) :
    e.fold.type.isInt = e.type.isInt ∧ e.fold.type.isFloat = e.type.isFloat := by
  induction e using inductionOn with
  | int | float | str | var | cast => exact ⟨rfl, rfl⟩
  | binary op a b iha ihb => exact (folded_foldOperation op a.fold b.fold).type_class iha
  | load v is => rw [fold_load]; exact ⟨rfl, rfl⟩
  | call t f as => rw [fold_call]; exact ⟨rfl, rfl⟩

/-- **A folded expression is an expression of C** if the expression is. -/
theorem checkC_fold {ranks : C.Ranks} {e : Expr} (h : e.checkC ranks = .ok ()) :
    e.fold.checkC ranks = .ok () := by
  induction e using inductionOn with
  | int | float | str | var => rfl
  | binary op a b iha ihb =>
    obtain ⟨ha, hb, hfloat⟩ := checkC_binary_iff.1 h
    have hfolded := folded_foldOperation op a.fold b.fold
    rw [fold_binary]
    generalize foldOperation op a.fold b.fold = e at hfolded
    cases hfolded with
    | node =>
      refine checkC_binary_iff.2 ⟨iha ha, ihb hb, ?_⟩
      rwa [DividesFloats, (type_class_fold a).2, (type_class_fold b).2]
    | literal => rfl
    | identity _ _ hid =>
      obtain rfl | rfl | rfl := hid.mem
      · exact iha ha
      · exact ihb hb
      · rfl
  | cast t a iha => exact iha h
  | load v is ih =>
    obtain ⟨hcount, his⟩ := checkC_load_iff.1 h
    rw [fold_load, checkC_load_iff, List.length_map, List.forall_mem_map]
    exact ⟨hcount, fun i hi => ih i hi (his i hi)⟩
  | call t f as ih =>
    rw [fold_call, checkC_call_iff, List.forall_mem_map]
    exact fun a ha => ih a ha (checkC_call_iff.1 h a ha)

end Expr

/-- **Folding a range leaves the bound of its loop.** -/
theorem Range.bound_fold (r : Range) (s : Word) : (r.mapExprs Expr.fold).bound s = r.bound s := by
  have hbound : ∀ r : Range, r.bound s =
      Expr.foldOperation .add r.first.fold (Expr.foldOperation .mul r.extent.fold (.int s)) :=
    fun _ => rfl
  rw [hbound, hbound, mapExprs, Expr.fold_fold, Expr.fold_fold]

/-! ## Blocks that C can express -/

namespace Block

/-- C can express the block, where some local arrays are known. -/
def Expressible (zigzag : Bool) (known : C.Ranks) (b : Block) : Prop :=
  ∃ s, b.toC zigzag known = .ok s

/-- The ranks of local arrays after a block do not depend on its expressions. -/
theorem ranks_fold (known : C.Ranks) (b : Block) : b.fold.ranks known = b.ranks known := by
  induction b generalizing known with
  | seq a b iha ihb =>
    have hfold : (seq a b).fold = seq a.fold b.fold := rfl
    rw [hfold, ranks, ranks, iha, ihb]
  | loop k i body ih | bind bs body ih => exact ih known
  | alloc v shape storage body ih =>
    have hfold : (alloc v shape storage body).fold =
        alloc v (shape.map Expr.fold) storage body.fold := rfl
    rw [hfold, ranks, ranks, List.length_map]
    exact ih _
  | eval | store => rfl

section

variable {zigzag : Bool} {known : C.Ranks} {a b body : Block} {k : LoopKind} {i : LoopIndex}
  {v : Var} {es : List Expr} {storage : String} {bs : List Binding} {e : Expr}

theorem expressible_seq_iff : (seq a b).Expressible zigzag known ↔
    a.Expressible zigzag known ∧ b.Expressible zigzag (a.ranks known) := by
  simp only [Expressible, toC, bind_eq_ok_iff]
  constructor
  · rintro ⟨-, s, ha, t, hb, -⟩
    exact ⟨⟨s, ha⟩, t, hb⟩
  · rintro ⟨⟨s, ha⟩, t, hb⟩
    exact ⟨_, s, ha, t, hb, rfl⟩

theorem expressible_loop_iff : (loop k i body).Expressible zigzag known ↔
    (∃ l, i.toC zigzag k = .ok l ∧ l.first.checkC known = .ok () ∧
      l.bound.checkC known = .ok ()) ∧ body.Expressible zigzag known := by
  simp only [Expressible, toC, bind_eq_ok_iff]
  constructor
  · rintro ⟨-, l, hl, ⟨⟩, hfirst, ⟨⟩, hbound, s, hs, -⟩
    exact ⟨⟨l, hl, hfirst, hbound⟩, s, hs⟩
  · rintro ⟨⟨l, hl, hfirst, hbound⟩, s, hs⟩
    exact ⟨_, l, hl, (), hfirst, (), hbound, s, hs, rfl⟩

theorem expressible_alloc_iff : (alloc v es storage body).Expressible zigzag known ↔
    (∀ e ∈ es, e.checkC known = .ok ()) ∧ body.Expressible zigzag ((v, es.length) :: known) := by
  simp only [Expressible, toC, bind_eq_ok_iff, ← Expr.checkAllC_iff]
  constructor
  · rintro ⟨-, ⟨⟩, hes, s, hs, -⟩
    exact ⟨hes, s, hs⟩
  · rintro ⟨hes, s, hs⟩
    exact ⟨_, (), hes, s, hs, rfl⟩

theorem expressible_bind_iff : (bind bs body).Expressible zigzag known ↔
    (∀ b ∈ bs, b.value.checkC known = .ok ()) ∧ body.Expressible zigzag known := by
  have hvalues : (∀ b ∈ bs, b.value.checkC known = .ok ()) ↔
      Expr.checkAllC known (bs.map Binding.value) = .ok () := by
    rw [Expr.checkAllC_iff, List.forall_mem_map]
  rw [hvalues]
  simp only [Expressible, toC, bind_eq_ok_iff]
  constructor
  · rintro ⟨-, ⟨⟩, hbs, s, hs, -⟩
    exact ⟨hbs, s, hs⟩
  · rintro ⟨hbs, s, hs⟩
    exact ⟨_, (), hbs, s, hs, rfl⟩

theorem expressible_eval_iff :
    (eval e).Expressible zigzag known ↔ e.checkC known = .ok () := by
  unfold Expressible toC
  split
  · next hnop =>
    cases e with
    | int n => exact ⟨fun _ => rfl, fun _ => ⟨.skip, rfl⟩⟩
    | _ => exact absurd hnop (by simp [isNop])
  · simp only [bind_eq_ok_iff]
    constructor
    · rintro ⟨-, ⟨⟩, he, -⟩
      exact he
    · exact fun he => ⟨_, (), he, rfl⟩

theorem expressible_store_iff : (store v es e).Expressible zigzag known ↔
    known.check v es.length = .ok () ∧ (∀ e ∈ es, e.checkC known = .ok ()) ∧
      e.checkC known = .ok () := by
  simp only [Expressible, toC, bind_eq_ok_iff, ← Expr.checkAllC_iff]
  constructor
  · rintro ⟨-, ⟨⟩, hcount, ⟨⟩, hes, ⟨⟩, he, -⟩
    exact ⟨hcount, hes, he⟩
  · rintro ⟨hcount, hes, he⟩
    exact ⟨_, (), hcount, (), hes, (), he, rfl⟩

end

end Block

/-- The head of a loop of C: the loop is of a kind that the target has, and its step is a literal
other than zero. -/
theorem LoopIndex.toC_eq_ok_iff {zigzag : Bool} {k : LoopKind} {i : LoopIndex} {l : C.Loop} :
    i.toC zigzag k = .ok l ↔ (k = .zigzag → zigzag = true) ∧
      ∃ s, i.range.step = .int s ∧ s ≠ 0 ∧
        l = ⟨i.var, i.range.first, i.range.bound s, s, k, i.tag⟩ := by
  have hstep : ∀ s, i.stepC = .ok s ↔ i.range.step = .int s ∧ s ≠ 0 := by
    intro s
    rw [← Expr.literal?_eq_some_iff, stepC]
    cases i.range.step.literal? with
    | none => simp
    | some n => by_cases hn : n = 0 <;> simp [hn] <;> grind
  unfold toC
  by_cases hk : k = .zigzag ∧ zigzag = false
  · have hnot : ¬(k = .zigzag → zigzag = true) := by simp [hk]
    dsimp only
    rw [if_pos hk]
    exact ⟨fun h => (nomatch h), fun h => absurd h.1 hnot⟩
  · have hyes : k = .zigzag → zigzag = true := by simpa using hk
    dsimp only
    rw [if_neg hk, bind_eq_ok_iff]
    constructor
    · rintro ⟨s, hs, h⟩
      obtain ⟨hlit, hne⟩ := (hstep s).1 hs
      exact ⟨hyes, s, hlit, hne, (Except.ok.inj h).symm⟩
    · rintro ⟨-, s, hlit, hne, rfl⟩
      exact ⟨s, (hstep s).2 ⟨hlit, hne⟩, rfl⟩

/-! ## Folded blocks -/

namespace Block

/-- **A folded block can be expressed** where the block can. -/
theorem Expressible.fold {zigzag : Bool} {known : C.Ranks} {b : Block}
    (h : b.Expressible zigzag known) : b.fold.Expressible zigzag known := by
  have hlist : ∀ {known : C.Ranks} {es : List Expr}, (∀ e ∈ es, e.checkC known = .ok ()) →
      ∀ e ∈ es.map Expr.fold, e.checkC known = .ok () := by
    intro known es hes
    rw [List.forall_mem_map]
    exact fun e he => Expr.checkC_fold (hes e he)
  induction b generalizing known with
  | seq a b iha ihb =>
    obtain ⟨ha, hb⟩ := expressible_seq_iff.1 h
    rw [← ranks_fold] at hb
    exact expressible_seq_iff.2 ⟨iha ha, ihb hb⟩
  | loop k i body ih =>
    obtain ⟨⟨l, hl, hfirst, hbound⟩, hbody⟩ := expressible_loop_iff.1 h
    obtain ⟨hk, s, hs, hne, rfl⟩ := LoopIndex.toC_eq_ok_iff.1 hl
    -- A literal step is not touched, so the folded loop has the bound that was checked before.
    have hstep : i.range.step.fold = .int s := by rw [hs]; rfl
    refine expressible_loop_iff.2 ⟨⟨_, LoopIndex.toC_eq_ok_iff.2 ⟨hk, s, hstep, hne, rfl⟩,
      Expr.checkC_fold hfirst, ?_⟩, ih hbody⟩
    dsimp only
    rwa [Range.bound_fold]
  | alloc v shape storage body ih =>
    obtain ⟨hshape, hbody⟩ := expressible_alloc_iff.1 h
    refine expressible_alloc_iff.2 ⟨hlist hshape, ?_⟩
    rw [List.length_map]
    exact ih hbody
  | bind bs body ih =>
    obtain ⟨hbs, hbody⟩ := expressible_bind_iff.1 h
    refine expressible_bind_iff.2 ⟨?_, ih hbody⟩
    rw [List.forall_mem_map]
    exact fun b hb => Expr.checkC_fold (hbs b hb)
  | eval e => exact expressible_eval_iff.2 (Expr.checkC_fold (expressible_eval_iff.1 h))
  | store v is e =>
    obtain ⟨hcount, his, he⟩ := expressible_store_iff.1 h
    refine expressible_store_iff.2 ⟨?_, hlist his, Expr.checkC_fold he⟩
    rwa [List.length_map]

end Block

/-! ## Zigzag loops -/

/-- A result, or the first of the zigzag loops on the way to it. -/
def C.unlessZigzag {α : Type} : List Var → Except Construct α → Except Construct α
  | [], x => x
  | v :: _, _ => .error (.zigzag v)

namespace C

variable {α β : Type} (vs ws : List Var) (x : Except Construct α) (a : α)

theorem ok_bind (f : α → Except Construct β) : .ok a >>= f = f a := rfl

theorem unlessZigzag_append : unlessZigzag (vs ++ ws) x = unlessZigzag vs (unlessZigzag ws x) := by
  cases vs <;> rfl

theorem unlessZigzag_bind (f : α → Except Construct β) :
    unlessZigzag vs x >>= f = unlessZigzag vs (x >>= f) := by
  cases vs <;> rfl

end C

namespace Block

open C

/-- The variables of the zigzag loops in a block, in program order. -/
def zigzags : Block → List Var
  | seq a b => a.zigzags ++ b.zigzags
  | loop k i body => (if k = .zigzag then [i.var] else []) ++ body.zigzags
  | alloc _ _ _ body => body.zigzags
  | bind _ body => body.zigzags
  | eval _ => []
  | store _ _ _ => []

/-- **Without zigzag loops the first of them is refused**, and nothing else that is accepted with
them. -/
theorem toC_without_zigzag {known : Ranks} {b : Block} {s : Stmt}
    (h : b.toC true known = .ok s) : b.toC false known = unlessZigzag b.zigzags (.ok s) := by
  induction b generalizing known s with
  | seq a b iha ihb =>
    obtain ⟨t, ha, h⟩ := bind_eq_ok_iff.1 h
    obtain ⟨u, hb, h⟩ := bind_eq_ok_iff.1 h
    rw [toC, zigzags, unlessZigzag_append, iha ha, unlessZigzag_bind, ok_bind, ihb hb,
      unlessZigzag_bind, ok_bind, h]
  | loop k i body ih =>
    obtain ⟨l, hl, h⟩ := bind_eq_ok_iff.1 h
    obtain ⟨⟨⟩, hfirst, h⟩ := bind_eq_ok_iff.1 h
    obtain ⟨⟨⟩, hbound, h⟩ := bind_eq_ok_iff.1 h
    obtain ⟨t, hbody, h⟩ := bind_eq_ok_iff.1 h
    rw [toC, zigzags]
    by_cases hk : k = .zigzag
    · subst hk
      rfl
    · have hl' : i.toC false k = .ok l :=
        LoopIndex.toC_eq_ok_iff.2 ⟨fun h => absurd h hk, (LoopIndex.toC_eq_ok_iff.1 hl).2⟩
      rw [if_neg hk, List.nil_append, hl', ok_bind, hfirst, ok_bind, hbound, ok_bind, ih hbody,
        unlessZigzag_bind, ok_bind, h]
  | alloc v shape storage body ih =>
    obtain ⟨⟨⟩, hshape, h⟩ := bind_eq_ok_iff.1 h
    obtain ⟨t, hbody, h⟩ := bind_eq_ok_iff.1 h
    rw [toC, zigzags, hshape, ok_bind, ih hbody, unlessZigzag_bind, ok_bind, h]
  | bind bs body ih =>
    obtain ⟨⟨⟩, hbs, h⟩ := bind_eq_ok_iff.1 h
    obtain ⟨t, hbody, h⟩ := bind_eq_ok_iff.1 h
    rw [toC, zigzags, hbs, ok_bind, ih hbody, unlessZigzag_bind, ok_bind, h]
  | eval e => exact h
  | store v is e => exact h

/-- What can be expressed without zigzag loops can be expressed with them. -/
theorem Expressible.with_zigzag {known : Ranks} {b : Block} (h : b.Expressible false known) :
    b.Expressible true known := by
  induction b generalizing known with
  | seq a b iha ihb =>
    obtain ⟨ha, hb⟩ := expressible_seq_iff.1 h
    exact expressible_seq_iff.2 ⟨iha ha, ihb hb⟩
  | loop k i body ih =>
    obtain ⟨⟨l, hl, hchecks⟩, hbody⟩ := expressible_loop_iff.1 h
    have hl' : i.toC true k = .ok l :=
      LoopIndex.toC_eq_ok_iff.2 ⟨fun _ => rfl, (LoopIndex.toC_eq_ok_iff.1 hl).2⟩
    exact expressible_loop_iff.2 ⟨⟨l, hl', hchecks⟩, ih hbody⟩
  | alloc v shape storage body ih =>
    obtain ⟨hshape, hbody⟩ := expressible_alloc_iff.1 h
    exact expressible_alloc_iff.2 ⟨hshape, ih hbody⟩
  | bind bs body ih =>
    obtain ⟨hbs, hbody⟩ := expressible_bind_iff.1 h
    exact expressible_bind_iff.2 ⟨hbs, ih hbody⟩
  | eval | store => exact h

/-- **A block without zigzag loops is all the same to every target.** -/
theorem expressible_false_iff {known : Ranks} {b : Block} :
    b.Expressible false known ↔ b.Expressible true known ∧ b.zigzags = [] := by
  constructor
  · intro h
    obtain ⟨s, hs⟩ := h.with_zigzag
    obtain ⟨t, ht⟩ := h
    refine ⟨⟨s, hs⟩, ?_⟩
    rw [toC_without_zigzag hs] at ht
    cases hz : b.zigzags with
    | nil => rfl
    | cons v vs =>
      rw [hz] at ht
      exact nomatch ht
  · rintro ⟨⟨s, hs⟩, hz⟩
    refine ⟨s, ?_⟩
    rw [toC_without_zigzag hs, hz]
    rfl

end Block

/-! ## Targets -/

namespace Target

variable (t u : Target) (b : Block) (g : Signature)

/-- What is made of an accepted block, and why any other is refused. -/
theorem emit_eq : t.emit b =
    match b.toC t.supportsZigzag [] with
    | .ok s => .ok (C.Line.render t.indentWidth.toNat
        (s.lines t (C.Names.empty.addAll s.vars).of 0))
    | .error c => .error (.unsupportedConstruct t.name c) := by
  rw [emit, accept]
  cases b.toC t.supportsZigzag [] <;> rfl

theorem emitFunction_eq : t.emitFunction g b =
    match b.toC t.supportsZigzag [] with
    | .ok s => .ok (C.banner t g ++ C.function t g s)
    | .error c => .error (.unsupportedConstruct t.name c) := by
  rw [emitFunction, accept]
  cases b.toC t.supportsZigzag [] <;> rfl

theorem emits_iff : (∃ text, t.emit b = .ok text) ↔ b.Expressible t.supportsZigzag [] := by
  rw [emit_eq, Block.Expressible]
  cases b.toC t.supportsZigzag [] <;> simp

theorem emitsFunction_iff :
    (∃ text, t.emitFunction g b = .ok text) ↔ b.Expressible t.supportsZigzag [] := by
  rw [emitFunction_eq, Block.Expressible]
  cases b.toC t.supportsZigzag [] <;> simp

theorem builds_iff (k : Kernel) :
    (∃ k', k.emitted t = .ok k') ↔ k.body.Expressible t.supportsZigzag [] := by
  rw [← emitsFunction_iff t k.body k.signature]
  constructor
  · rintro ⟨k', h⟩
    obtain ⟨text, htext, -⟩ := bind_eq_ok_iff.1 h
    exact ⟨text, htext⟩
  · rintro ⟨text, htext⟩
    exact ⟨_, bind_eq_ok_iff.2 ⟨text, htext, rfl⟩⟩

end Target

/-! ## Main statements -/

/-- **Folding keeps a block accepted**, by every target and under every signature, and keeps the
class of every type. -/
theorem fold_keeps_accepted :
    (∀ e : Expr, e.fold.type.isInt = e.type.isInt ∧ e.fold.type.isFloat = e.type.isFloat) ∧
    ∀ (target : Target) (b : Block),
      ((∃ text, target.emit b = .ok text) → ∃ text, target.emit b.fold = .ok text) ∧
      ∀ g : Signature, (∃ text, target.emitFunction g b = .ok text) →
        ∃ text, target.emitFunction g b.fold = .ok text := by
  refine ⟨Expr.type_class_fold, fun target b => ⟨?_, fun g => ?_⟩⟩
  · rw [target.emits_iff, target.emits_iff]
    exact Block.Expressible.fold
  · rw [target.emitsFunction_iff, target.emitsFunction_iff]
    exact Block.Expressible.fold

/-- A loop that runs down, with a product that folds to no statement and a remainder that stays. -/
def wrappedRow : Block :=
  let n : Var := ⟨0, "n", .int32⟩
  let i : Var := ⟨1, "i", .int32⟩
  let a : Var := ⟨2, "a", .float32⟩
  .loop .zigzag ⟨i, ⟨.int 2 + .int 3, n * .int 1, .int (-2)⟩, "row"⟩
    (.seq (.eval (n * .int 0))
      (.store a [.binary .floorMod i (.int 4 + .int 4)] (.cast .float32 (.binary .floorDiv i n))))

theorem fold_keeps_accepted_wrappedRow : wrappedRow.fold ≠ wrappedRow ∧
    (∃ text, Target.portable.emit wrappedRow = .ok text) ∧
    (∃ text, Target.portable.emit wrappedRow.fold = .ok text) ∧
    ∃ text, Target.portable.emitFunction ⟨"row", [], []⟩ wrappedRow.fold = .ok text := by
  have hemit : ∃ text, Target.portable.emit wrappedRow = .ok text := ⟨_, rfl⟩
  have hfunction : ∃ text,
      Target.portable.emitFunction ⟨"row", [], []⟩ wrappedRow = .ok text := ⟨_, rfl⟩
  obtain ⟨-, h⟩ := fold_keeps_accepted
  exact ⟨by decide, hemit, (h .portable wrappedRow).1 hemit,
    (h .portable wrappedRow).2 ⟨"row", [], []⟩ hfunction⟩

/-- Two targets accept the same block, or refuse it for the same construct. -/
def Target.Agree (t u : Target) (x y : Except Error String) : Prop :=
  (∃ s s', x = .ok s ∧ y = .ok s') ∨ ∃ c, x = .error (.unsupportedConstruct t.name c) ∧
    y = .error (.unsupportedConstruct u.name c)

/-- **What is accepted depends on zigzag loops only.** Targets that both have them, or both do not,
accept the same blocks and refuse the others for the same construct. A target without them accepts
what the others accept, but no block with a zigzag loop at any depth, and then names the first. -/
theorem acceptance_by_zigzag (t u : Target) :
    (t.supportsZigzag = u.supportsZigzag → ∀ (b : Block) (g : Signature),
      t.Agree u (t.emit b) (u.emit b) ∧
      t.Agree u (t.emitFunction g b) (u.emitFunction g b)) ∧
    (t.supportsZigzag = true → u.supportsZigzag = false → ∀ (b : Block) (g : Signature),
      ((∃ text, u.emit b = .ok text) ↔ (∃ text, t.emit b = .ok text) ∧ b.zigzags = []) ∧
      ((∃ text, u.emitFunction g b = .ok text) ↔
        (∃ text, t.emitFunction g b = .ok text) ∧ b.zigzags = []) ∧
      ∀ v vs, b.zigzags = v :: vs → (∃ text, t.emit b = .ok text) →
        u.emit b = .error (.unsupportedConstruct u.name (.zigzag v)) ∧
        u.emitFunction g b = .error (.unsupportedConstruct u.name (.zigzag v))) ∧
    (∀ k : Kernel, (∃ k', k.build "arm_m" = .ok k') ↔
      (∃ k', k.build "c" = .ok k') ∧ k.body.zigzags = []) ∧
    ∀ d : Definition Id, (∃ k', d.build "arm_m" = .ok k') ↔
      (∃ k', d.build "c" = .ok k') ∧ ∀ k, d.lower = .ok k → k.body.zigzags = [] := by
  have hkernel : ∀ k : Kernel, (∃ k', k.emitted .cortexM = .ok k') ↔
      (∃ k', k.emitted .portable = .ok k') ∧ k.body.zigzags = [] := by
    intro k
    rw [Target.builds_iff, Target.builds_iff]
    exact Block.expressible_false_iff
  refine ⟨?_, ?_, hkernel, ?_⟩
  · intro hzigzag b g
    rw [Target.emit_eq, Target.emit_eq, Target.emitFunction_eq, Target.emitFunction_eq, hzigzag]
    cases b.toC u.supportsZigzag [] with
    | ok s => exact ⟨.inl ⟨_, _, rfl, rfl⟩, .inl ⟨_, _, rfl, rfl⟩⟩
    | error c => exact ⟨.inr ⟨c, rfl, rfl⟩, .inr ⟨c, rfl, rfl⟩⟩
  · intro ht hu b g
    refine ⟨?_, ?_, ?_⟩
    · rw [u.emits_iff, t.emits_iff, ht, hu, Block.expressible_false_iff]
    · rw [u.emitsFunction_iff, t.emitsFunction_iff, ht, hu, Block.expressible_false_iff]
    · intro v vs hz h
      obtain ⟨s, hs⟩ := (t.emits_iff b).1 h
      rw [ht] at hs
      rw [u.emit_eq, u.emitFunction_eq, hu, Block.toC_without_zigzag hs, hz]
      exact ⟨rfl, rfl⟩
  · intro d
    have hbuild : ∀ (name : String) (target : Target), Target.named name = .ok target →
        d.build name = d.lower.bind (Kernel.emitted target) := by
      intro name target h
      rw [Definition.build, h]
      rfl
    rw [hbuild "arm_m" .cortexM rfl, hbuild "c" .portable rfl]
    cases d.lower with
    | error e => simp [Except.bind]
    | ok k =>
      refine (hkernel k).trans (and_congr_right fun _ => ⟨fun h k' hk => ?_, fun h => h k rfl⟩)
      exact Except.ok.inj hk ▸ h

/-- The dialect of Cortex-M under other spellings. -/
def terse : Target :=
  { Target.cortexM with name := "m7", includes := [], indexType := "long", indentWidth := 1 }

theorem acceptance_by_zigzag_wrappedRow :
    (∃ text, Target.portable.emit wrappedRow = .ok text) ∧
    Target.cortexM.emit wrappedRow =
      .error (.unsupportedConstruct "arm_m" (.zigzag ⟨1, "i", .int32⟩)) ∧
    ∃ c, terse.emit wrappedRow = .error (.unsupportedConstruct "m7" c) := by
  have hemit : ∃ text, Target.portable.emit wrappedRow = .ok text := ⟨_, rfl⟩
  obtain ⟨-, hrefuses, -⟩ := acceptance_by_zigzag .portable .cortexM
  obtain ⟨-, -, hfirst⟩ := hrefuses rfl rfl wrappedRow ⟨"row", [], []⟩
  have hcortex := (hfirst ⟨1, "i", .int32⟩ [] rfl hemit).1
  refine ⟨hemit, hcortex, ?_⟩
  have hagree := (acceptance_by_zigzag .cortexM terse).1 rfl wrappedRow ⟨"row", [], []⟩
  rcases hagree.1 with ⟨s, s', hs, -⟩ | ⟨c, -, hc⟩
  · rw [hcortex] at hs
    exact nomatch hs
  · exact ⟨c, hc⟩

end LoopNest
