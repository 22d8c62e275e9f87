import LoopNest.Proofs.Execution

/-!
# Folding preserves a run

Folded arithmetic has the values, the failures that remain and the calls of what was written. The
operands of an operator must be of one class: a whole number and a floating-point number under one
operator, or text under any, would mean what the machine makes of it, and no type tells.

* `Expr.isUnmixed`, `Block.isUnmixed`: operands of one class;
* `Expr.Folded`, `Expr.Identity`: what folding makes of an operator;
* **`Operator.onInts_of_fold?`**: literals are folded to the exact result;
* **`Expr.suits_eval`**: values are of the class that the type says;
* **`Expr.eval_fold`**, **`fold_preserves_run`**: folded expressions and blocks.
-/

namespace LoopNest

/-! ## Arithmetic of words -/

namespace Word

theorem toInt_ne_zero {a : Word} (h : a ≠ 0) : a.toInt ≠ 0 := by
  intro ha
  exact h (Int64.toInt_inj.1 (ha.trans Int64.toInt_zero.symm))

theorem quot?_eq_some {a b q : Word} (h : quot? a b = some q) :
    b ≠ 0 ∧ q.toInt = a.toInt.tdiv b.toInt := by
  unfold quot? at h
  split at h
  · simp at h
  · next hb => exact ⟨hb, ofInt?_eq_some_iff.1 h⟩

theorem fdiv_eq_ite {a b : Int} (hb : b ≠ 0) :
    a.fdiv b = if ¬b ∣ a ∧ (decide (a < 0) ≠ decide (b < 0)) then a.tdiv b - 1 else a.tdiv b := by
  rw [Int.fdiv_eq_tdiv]
  by_cases hdvd : b ∣ a
  · simp [hdvd]
  · by_cases ha : a < 0
    · rcases lt_or_gt_of_ne hb with hneg | hpos
      · simp [hdvd, ha, hneg, not_le.2 ha, not_le.2 hneg, Int.sign_eq_neg_one_of_neg hneg]
      · simp [hdvd, ha, not_lt.2 hpos.le, not_le.2 ha, hpos.le, Int.sign_eq_one_of_pos hpos]
    · rcases lt_or_gt_of_ne hb with hneg | hpos
      · simp [hdvd, ha, hneg, not_lt.1 ha, not_le.2 hneg]
      · simp [hdvd, ha, not_lt.2 hpos.le, not_lt.1 ha, hpos.le]

/-- The quotient is the one rounded toward negative infinity. -/
theorem floorDiv?_eq_some {a b q : Word} (h : floorDiv? a b = some q) :
    b ≠ 0 ∧ q.toInt = a.toInt.fdiv b.toInt := by
  rw [floorDiv?, Option.bind_eq_bind, Option.bind_eq_some_iff] at h
  obtain ⟨c, hc, h⟩ := h
  obtain ⟨hb, hc⟩ := quot?_eq_some hc
  have hmod : a % b ≠ 0 ↔ ¬ b.toInt ∣ a.toInt := by
    rw [Int.dvd_iff_tmod_eq_zero, ← Int64.toInt_mod, not_iff_not, ← Int64.toInt_inj,
      Int64.toInt_zero]
  refine ⟨hb, ?_⟩
  rw [fdiv_eq_ite (toInt_ne_zero hb), ← hc]
  simp only [hmod, lt_zero_iff] at h
  split at h
  · next hcond =>
    rw [if_pos hcond]
    exact ofInt?_eq_some_iff.1 h
  · next hcond =>
    rw [if_neg hcond, Option.some.inj h]

/-- The remainder belongs to that quotient. -/
theorem floorMod?_eq_some {a b r : Word} (h : floorMod? a b = some r) :
    b ≠ 0 ∧ r.toInt = a.toInt.fmod b.toInt := by
  simp only [floorMod?, Option.bind_eq_bind, Option.bind_eq_some_iff] at h
  obtain ⟨q, hq, p, hp, hr⟩ := h
  obtain ⟨hb, hq⟩ := floorDiv?_eq_some hq
  have hp : p.toInt = q.toInt * b.toInt := ofInt?_eq_some_iff.1 hp
  have hr : r.toInt = a.toInt - p.toInt := ofInt?_eq_some_iff.1 hr
  exact ⟨hb, by rw [hr, hp, hq, Int.fmod_def, mul_comm]⟩

end Word

/-- **Literals are folded to the exact result**: nothing wraps. -/
theorem Operator.onInts_of_fold? {F : Type} {op : Operator} {m n r : Word}
    (h : op.fold? m n = some r) :
    op.onInts m.toInt n.toInt = some (.int r.toInt : Value F) := by
  cases op with
  | add => rw [onInts, ← Word.ofInt?_eq_some_iff.1 h]
  | sub => rw [onInts, ← Word.ofInt?_eq_some_iff.1 h]
  | mul => rw [onInts, ← Word.ofInt?_eq_some_iff.1 h]
  | floorDiv =>
    obtain ⟨hn, hr⟩ := Word.floorDiv?_eq_some h
    rw [onInts, if_neg (Word.toInt_ne_zero hn), hr]
  | floorMod =>
    obtain ⟨hn, hr⟩ := Word.floorMod?_eq_some h
    rw [onInts, if_neg (Word.toInt_ne_zero hn), hr]
  | min =>
    obtain rfl := Option.some.inj h
    simp only [onInts, Int64.le_iff_toInt_le, min_def, apply_ite Int64.toInt]
  | max =>
    obtain rfl := Option.some.inj h
    simp only [onInts, Int64.le_iff_toInt_le, max_def, apply_ite Int64.toInt]
  | lt | le | eq => simp [fold?] at h

theorem Operator.not_compares_of_fold? {op : Operator} {m n r : Word} (h : op.fold? m n = some r) :
    op.compares = false := by
  cases op with
  | lt | le | eq => simp [fold?] at h
  | add | sub | mul | floorDiv | floorMod | min | max => rfl

/-! ## Operands of one class -/

/-- A value behaves as the type of its expression says: a floating-point number, or a whole number,
and an integer where the type is an integer type. -/
structure Value.Suits {F : Type} (t : ElemType) (x : Value F) : Prop where
  float : t.isFloat = true → ∃ y, x = .float y
  whole : t.isFloat = false → ∃ n, x.whole? = some n
  int : t.isInt = true → ∃ n, x = .int n

theorem Value.suits_of_fits {F : Type} {t : ElemType} {x : Value F} (h : x.fits t = true) :
    x.Suits t := ⟨eq_float_of_fits h, whole_of_fits h, eq_int_of_fits h⟩

theorem ElemType.not_isFloat_of_isInt {t : ElemType} (h : t.isInt = true) : t.isFloat = false := by
  cases t <;> simp_all [isInt, isFloat]

namespace Expr

/-- A piece of text. -/
def isText : Expr → Bool
  | str _ => true
  | _ => false

mutual

/-- No operator has text as an operand, or one floating-point operand only. -/
def isUnmixed : Expr → Bool
  | int _ | float _ | str _ | var _ => true
  | binary _ a b =>
    a.isUnmixed && b.isUnmixed && !a.isText && !b.isText && a.type.isFloat == b.type.isFloat
  | cast _ a => a.isUnmixed
  | load _ is => allUnmixed is
  | call _ _ as => allUnmixed as

/-- No expression of a list mixes operands. -/
def allUnmixed : List Expr → Bool
  | [] => true
  | e :: es => e.isUnmixed && allUnmixed es

end

theorem allUnmixed_iff {es : List Expr} : allUnmixed es = true ↔ ∀ e ∈ es, e.isUnmixed = true := by
  induction es with
  | nil => simp [allUnmixed]
  | cons e es ih => simp [allUnmixed, ih]

theorem isUnmixed_binary_iff {op : Operator} {a b : Expr} : (binary op a b).isUnmixed = true ↔
    a.isUnmixed = true ∧ b.isUnmixed = true ∧ a.isText = false ∧ b.isText = false ∧
      a.type.isFloat = b.type.isFloat := by
  simp only [isUnmixed, Bool.and_eq_true, Bool.not_eq_true', beq_iff_eq, and_assoc]

theorem isUnmixed_load_iff {v : Var} {is : List Expr} :
    (load v is).isUnmixed = true ↔ ∀ e ∈ is, e.isUnmixed = true := allUnmixed_iff

theorem isUnmixed_call_iff {t : ElemType} {f : String} {as : List Expr} :
    (call t f as).isUnmixed = true ↔ ∀ e ∈ as, e.isUnmixed = true := allUnmixed_iff

end Expr

/-- No expression of a block mixes operands. -/
def Block.isUnmixed (b : Block) : Bool := b.exprs.all Expr.isUnmixed

section

variable {F : Type} {M : Machine F} {w : Bounds} {ρ : Env F} {μ : Memory F} {log log' : Log F}

theorem Operator.suits_onInts {op : Operator} {t : ElemType} {m n : Int} {z : Value F}
    (ht : t.isFloat = false) (hz : op.onInts m n = some z) :
    z.Suits (if op.compares then .bool else t) := by
  have hint : ∀ k : Int, (Value.int k : Value F).Suits t := fun k =>
    ⟨fun h => absurd (h.symm.trans ht) (by simp), fun _ => ⟨k, rfl⟩, fun _ => ⟨k, rfl⟩⟩
  have hbool : ∀ b : Bool, (Value.bool b : Value F).Suits .bool := fun b =>
    Value.suits_of_fits rfl
  cases op with
  | floorDiv | floorMod =>
    simp only [onInts] at hz
    split at hz
    · simp at hz
    · obtain rfl := Option.some.inj hz
      exact hint _
  | add | sub | mul | min | max =>
    obtain rfl := Option.some.inj hz
    exact hint _
  | lt | le | eq =>
    obtain rfl := Option.some.inj hz
    exact hbool _

/-- Operands of one class give a value of the type of the operator. -/
theorem Machine.suits_apply {op : Operator} {t u : ElemType} {x y z : Value F} (hx : x.Suits t)
    (hy : y.Suits u) (htu : t.isFloat = u.isFloat) (hz : M.apply op x y = some z) :
    z.Suits (if op.compares then .bool else t) := by
  cases ht : t.isFloat with
  | true =>
    obtain ⟨a, rfl⟩ := hx.float ht
    obtain ⟨b, rfl⟩ := hy.float (htu ▸ ht)
    obtain rfl := Option.some.inj hz
    unfold onFloats
    split
    · exact Value.suits_of_fits rfl
    · exact Value.suits_of_fits ht
  | false =>
    obtain ⟨m, hm⟩ := hx.whole ht
    obtain ⟨n, hn⟩ := hy.whole (htu ▸ ht)
    rw [M.apply_of_whole hm hn] at hz
    exact Operator.suits_onInts ht hz

namespace Expr

/-- **A value is of the class that the type of its expression says.** -/
theorem suits_eval [M.Typed] {e : Expr} {x : Value F} (he : e.isUnmixed = true)
    (ht : e.isText = false) (hx : e.eval M w ρ μ log = some (x, log')) : x.Suits e.type := by
  induction e using inductionOn generalizing x log log' with
  | int n =>
    obtain ⟨rfl, -⟩ := Prod.mk.inj (Option.some.inj hx)
    exact Value.suits_of_fits rfl
  | float y =>
    obtain ⟨rfl, -⟩ := Prod.mk.inj (Option.some.inj hx)
    exact Value.suits_of_fits rfl
  | str s => simp [isText] at ht
  | var v =>
    obtain ⟨rfl, -⟩ := Prod.mk.inj (Option.some.inj hx)
    exact Value.suits_of_fits (ρ.fits v)
  | binary op a b iha ihb =>
    obtain ⟨hua, hub, hta, htb, hclass⟩ := isUnmixed_binary_iff.1 he
    obtain ⟨y, l, z, hy, hz, hop⟩ := eval_binary_iff.1 hx
    exact Machine.suits_apply (iha hua hta hy) (ihb hub htb hz) hclass hop
  | cast t a iha =>
    obtain ⟨y, -, rfl⟩ := eval_cast_iff.1 hx
    exact Value.suits_of_fits (Machine.Typed.cast_fits t y)
  | load v is _ =>
    obtain ⟨c, -, -, hc⟩ := eval_load_iff.1 hx
    exact Value.suits_of_fits (μ.fits v c x hc)
  | call t f as _ =>
    obtain ⟨xs, l, -, rfl, -⟩ := eval_call_iff.1 hx
    exact Value.suits_of_fits (Machine.Typed.answer_fits l t f xs)

end Expr

end

/-! ## Folding one operator -/

namespace Expr

/-- The identities of integer arithmetic: an operator, its operands, and what is left of them. -/
inductive Identity : Operator → Expr → Expr → Expr → Prop where
  | zero_add (b : Expr) : Identity .add (int 0) b b
  | add_zero (a : Expr) : Identity .add a (int 0) a
  | sub_zero (a : Expr) : Identity .sub a (int 0) a
  | one_mul (b : Expr) : Identity .mul (int 1) b b
  | mul_one (a : Expr) : Identity .mul a (int 1) a
  | floorDiv_one (a : Expr) : Identity .floorDiv a (int 1) a
  | zero_mul {b : Expr} (h : b.hasEffect = false) : Identity .mul (int 0) b (int 0)
  | mul_zero {a : Expr} (h : a.hasEffect = false) : Identity .mul a (int 0) (int 0)

/-- What folding makes of an operator. -/
inductive Folded (op : Operator) (a b : Expr) : Expr → Prop where
  | node : Folded op a b (binary op a b)
  | literal {m n r : Word} (ha : a = int m) (hb : b = int n) (h : op.fold? m n = some r) :
    Folded op a b (int r)
  | identity {e : Expr} (ha : a.type.isInt = true) (hb : b.type.isInt = true)
    (h : Identity op a b e) : Folded op a b e

theorem folded_foldIdentity (op : Operator) (a b : Expr) :
    Folded op a b (foldIdentity op a b) := by
  unfold foldIdentity
  split
  case isFalse => exact .node
  case isTrue hint =>
    rw [Bool.and_eq_true] at hint
    have hleft : ∀ {k}, a.literal? = some k → a = int k := literal?_eq_some_iff.1
    have hright : ∀ {k}, b.literal? = some k → b = int k := literal?_eq_some_iff.1
    split
    case h_1 h => exact .identity hint.1 hint.2 (hleft h ▸ .zero_add b)
    case h_2 h _ => exact .identity hint.1 hint.2 (hright h ▸ .add_zero a)
    case h_3 h => exact .identity hint.1 hint.2 (hright h ▸ .sub_zero a)
    case h_4 h => exact .identity hint.1 hint.2 (hleft h ▸ .one_mul b)
    case h_5 h _ => exact .identity hint.1 hint.2 (hright h ▸ .mul_one a)
    case h_6 h => exact .identity hint.1 hint.2 (hright h ▸ .floorDiv_one a)
    case h_7 h _ =>
      split
      · exact .node
      · next heff =>
        simp only [Bool.or_eq_true, not_or, Bool.not_eq_true] at heff
        exact .identity hint.1 hint.2 (hleft h ▸ .zero_mul heff.2)
    case h_8 h _ _ =>
      split
      · exact .node
      · next heff =>
        simp only [Bool.or_eq_true, not_or, Bool.not_eq_true] at heff
        exact .identity hint.1 hint.2 (hright h ▸ .mul_zero heff.1)
    case h_9 => exact .node

theorem folded_foldOperation (op : Operator) (a b : Expr) :
    Folded op a b (foldOperation op a b) := by
  unfold foldOperation
  split
  case h_1 m n hm hn =>
    split
    case h_1 r hr => exact .literal (literal?_eq_some_iff.1 hm) (literal?_eq_some_iff.1 hn) hr
    case h_2 => exact .node
  case h_2 => exact folded_foldIdentity op a b

section

variable {F : Type} {M : Machine F} {w : Bounds} {ρ : Env F} {μ : Memory F} {log log' l : Log F}
  {op : Operator} {a b e : Expr}

/-- **The identities hold, and no call is lost.** -/
theorem Identity.eval {m n : Int} {z : Value F} (h : Identity op a b e)
    (ha : a.eval M w ρ μ log = some (.int m, l)) (hb : b.eval M w ρ μ l = some (.int n, log'))
    (hz : op.onInts m n = some z) : e.eval M w ρ μ log = some (z, log') := by
  have hleft : ∀ {k : Word}, (int k).eval M w ρ μ log = some (.int m, l) → m = k.toInt ∧ l = log :=
    fun hk => ⟨Value.int.inj (eval_int_iff.1 hk).1, (eval_int_iff.1 hk).2⟩
  have hright : ∀ {k : Word}, (int k).eval M w ρ μ l = some (.int n, log') →
      n = k.toInt ∧ log' = l :=
    fun hk => ⟨Value.int.inj (eval_int_iff.1 hk).1, (eval_int_iff.1 hk).2⟩
  cases h with
  | zero_add | one_mul =>
    obtain ⟨rfl, rfl⟩ := hleft ha
    obtain rfl : z = .int n := by simpa [Operator.onInts, eq_comm] using hz
    exact hb
  | add_zero | sub_zero | mul_one | floorDiv_one =>
    obtain ⟨rfl, rfl⟩ := hright hb
    obtain rfl : z = .int m := by simpa [Operator.onInts, eq_comm] using hz
    exact ha
  | zero_mul heff =>
    obtain ⟨rfl, rfl⟩ := hleft ha
    obtain rfl : z = .int 0 := by simpa [Operator.onInts, eq_comm] using hz
    exact eval_int_iff.2 ⟨rfl, log_eq_of_not_hasEffect heff hb⟩
  | mul_zero heff =>
    obtain ⟨rfl, rfl⟩ := hright hb
    obtain rfl : z = .int 0 := by simpa [Operator.onInts, eq_comm] using hz
    exact eval_int_iff.2 ⟨rfl, log_eq_of_not_hasEffect heff ha⟩

/-- Folding an operator keeps its value and the calls of its operands. -/
theorem Folded.eval {x y z : Value F} (h : Folded op a b e)
    (ha : a.eval M w ρ μ log = some (x, l)) (hb : b.eval M w ρ μ l = some (y, log'))
    (hx : a.type.isInt = true → ∃ n, x = .int n) (hy : b.type.isInt = true → ∃ n, y = .int n)
    (hz : M.apply op x y = some z) : e.eval M w ρ μ log = some (z, log') := by
  cases h with
  | node => exact eval_binary_iff.2 ⟨x, l, y, ha, hb, hz⟩
  | literal hm hn hr =>
    subst hm hn
    obtain ⟨rfl, rfl⟩ := eval_int_iff.1 ha
    obtain ⟨rfl, rfl⟩ := eval_int_iff.1 hb
    rw [Machine.apply_int, Operator.onInts_of_fold? hr] at hz
    exact eval_int_iff.2 ⟨(Option.some.inj hz).symm, rfl⟩
  | identity hta htb hid =>
    obtain ⟨m, rfl⟩ := hx hta
    obtain ⟨n, rfl⟩ := hy htb
    rw [Machine.apply_int] at hz
    exact hid.eval ha hb hz

end

/-! ## The pass -/

section

variable {op : Operator} {a b e : Expr}

theorem Identity.mem (h : Identity op a b e) : e = a ∨ e = b ∨ e = int 0 := by
  cases h <;> simp

theorem Identity.not_compares (h : Identity op a b e) : op.compares = false := by
  cases h <;> rfl

@[simp] theorem fold_binary (op : Operator) (a b : Expr) :
    (binary op a b).fold = foldOperation op a.fold b.fold := rfl

@[simp] theorem fold_cast (t : ElemType) (a : Expr) : (cast t a).fold = cast t a.fold := rfl

@[simp] theorem fold_load (v : Var) (is : List Expr) : (load v is).fold = load v (is.map fold) := by
  rw [fold, bottomUp, bottomUpAll_eq_map]
  rfl

@[simp] theorem fold_call (t : ElemType) (f : String) (as : List Expr) :
    (call t f as).fold = call t f (as.map fold) := by
  rw [fold, bottomUp, bottomUpAll_eq_map]
  rfl

/-- Values of one class, and text for text. -/
structure SameClass (a b : Expr) : Prop where
  int : b.type.isInt = a.type.isInt
  float : b.type.isFloat = a.type.isFloat
  text : b.isText = a.isText

theorem SameClass.refl (e : Expr) : SameClass e e := ⟨rfl, rfl, rfl⟩

/-- What an operator on operands of the same classes is folded to is of the same class. -/
theorem Folded.sameClass {c d : Expr} (h : Folded op c d e) (ha : SameClass a c)
    (hb : SameClass b d) (hta : a.isText = false) (htb : b.isText = false) :
    SameClass (binary op a b) e := by
  have hint : op.compares = false → a.type.isInt = true → ∀ {e : Expr}, e.type.isInt = true →
      e.isText = false → SameClass (binary op a b) e := fun hop hai e he hte => by
    have htype : (binary op a b).type = a.type := by simp [type, hop]
    exact ⟨by rw [htype, hai, he], by rw [htype, ElemType.not_isFloat_of_isInt hai,
      ElemType.not_isFloat_of_isInt he], hte⟩
  cases h with
  | node =>
    cases hop : op.compares with
    | true => exact ⟨by simp [type, hop], by simp [type, hop], rfl⟩
    | false => exact ⟨by simp [type, hop, ha.int], by simp [type, hop, ha.float], rfl⟩
  | literal hm hn hr =>
    subst hm
    exact hint (Operator.not_compares_of_fold? hr) ha.int.symm rfl rfl
  | identity hc hd hid =>
    obtain rfl | rfl | rfl := hid.mem
    · exact hint hid.not_compares (ha.int ▸ hc) hc (ha.text.trans hta)
    · exact hint hid.not_compares (ha.int ▸ hc) hd (hb.text.trans htb)
    · exact hint hid.not_compares (ha.int ▸ hc) rfl rfl

theorem Folded.isUnmixed (h : Folded op a b e) (hn : (binary op a b).isUnmixed = true) :
    e.isUnmixed = true := by
  cases h with
  | node => exact hn
  | literal => rfl
  | identity _ _ hid =>
    obtain ⟨hua, hub, -⟩ := isUnmixed_binary_iff.1 hn
    obtain rfl | rfl | rfl := hid.mem
    · exact hua
    · exact hub
    · rfl

/-- Folding keeps operands unmixed and the class of the value. -/
theorem isUnmixed_fold (he : e.isUnmixed = true) :
    e.fold.isUnmixed = true ∧ SameClass e e.fold := by
  induction e using inductionOn with
  | int n | float x | str s | var v => exact ⟨he, .refl _⟩
  | binary op a b iha ihb =>
    obtain ⟨hua, hub, hta, htb, hclass⟩ := isUnmixed_binary_iff.1 he
    obtain ⟨hfa, hca⟩ := iha hua
    obtain ⟨hfb, hcb⟩ := ihb hub
    have hfolded := folded_foldOperation op a.fold b.fold
    refine ⟨hfolded.isUnmixed (isUnmixed_binary_iff.2 ⟨hfa, hfb, hca.text.trans hta,
      hcb.text.trans htb, ?_⟩), hfolded.sameClass hca hcb hta htb⟩
    rw [hca.float, hcb.float, hclass]
  | cast t a iha => exact ⟨(iha he).1, ⟨rfl, rfl, rfl⟩⟩
  | load v is ih =>
    rw [isUnmixed_load_iff] at he
    rw [fold_load, isUnmixed_load_iff, List.forall_mem_map]
    exact ⟨fun i hi => (ih i hi (he i hi)).1, ⟨rfl, rfl, rfl⟩⟩
  | call t f as ih =>
    rw [isUnmixed_call_iff] at he
    rw [fold_call, isUnmixed_call_iff, List.forall_mem_map]
    exact ⟨fun a ha => (ih a ha (he a ha)).1, ⟨rfl, rfl, rfl⟩⟩

end

/-- **A folded expression has the value and the calls of the expression.** -/
theorem eval_fold {F : Type} {M : Machine F} [M.Typed] {w : Bounds} {ρ : Env F} {μ : Memory F}
    {e : Expr} (he : e.isUnmixed = true) : Refines (e.eval M w ρ μ) (e.fold.eval M w ρ μ) := by
  induction e using inductionOn with
  | int n | float x | str s | var v => exact .refl _
  | binary op a b iha ihb =>
    obtain ⟨hua, hub, hta, htb, -⟩ := isUnmixed_binary_iff.1 he
    rintro log ⟨z, log'⟩ h
    obtain ⟨x, l, y, hx, hy, hz⟩ := eval_binary_iff.1 h
    have hx := iha hua _ _ hx
    have hy := ihb hub _ _ hy
    obtain ⟨hfa, hca⟩ := isUnmixed_fold hua
    obtain ⟨hfb, hcb⟩ := isUnmixed_fold hub
    exact (folded_foldOperation op a.fold b.fold).eval hx hy
      (suits_eval hfa (hca.text.trans hta) hx).int (suits_eval hfb (hcb.text.trans htb) hy).int hz
  | cast t a iha => exact (iha he).cast
  | load v is ih =>
    rw [isUnmixed_load_iff] at he
    rw [fold_load]
    exact (Refines.all fun i hi => ih i hi (he i hi)).load fun _ _ hw hc => ⟨hw, hc⟩
  | call t f as ih =>
    rw [isUnmixed_call_iff] at he
    rw [fold_call]
    exact (Refines.all fun a ha => ih a ha (he a ha)).call

theorem fold_literals (op : Operator) (m n : Word) : (binary op (int m) (int n)).fold =
    match op.fold? m n with
    | some r => int r
    | none => binary op (int m) (int n) := rfl

end Expr

/-- **Folding preserves runs and values**, with all calls in their order, and literal arithmetic is
folded to its exact result only. -/
theorem fold_preserves_run {F : Type} (M : Machine F) [M.Typed] (ρ : Env F) :
    (∀ b : Block, b.isUnmixed = true → ∀ s s',
      b.run M ρ s = some s' → b.fold.run M ρ s = some s') ∧
    (∀ e : Expr, e.isUnmixed = true → ∀ μ log x log',
      e.eval M .unchecked ρ μ log = some (x, log') →
        e.fold.eval M .unchecked ρ μ log = some (x, log')) ∧
    ∀ (op : Operator) (m n r : Word), (Expr.binary op (.int m) (.int n)).fold = .int r →
      op.onInts m.toInt n.toInt = some (.int r.toInt : Value F) := by
  refine ⟨fun b hb s s' h => ?_, fun e he μ log x log' h => Expr.eval_fold he _ _ h, ?_⟩
  · rw [Block.isUnmixed, List.all_eq_true] at hb
    refine Block.exec_mapExprs (fun e he w ρ μ => ?_) h
    exact (Expr.eval_unchecked w ρ μ e).trans (Expr.eval_fold (hb e he))
  · intro op m n r h
    refine Operator.onInts_of_fold? ?_
    rw [Expr.fold_literals] at h
    cases hfold : op.fold? m n with
    | none => simp [hfold] at h
    | some q => simpa [hfold] using h

/-- Three calls, each times zero, and a sum that is no word. -/
def tickLoop : Block :=
  let i : Var := ⟨0, "i", .int32⟩
  let tick : Expr := .call .int64 "tick" []
  .loop .spatial ⟨i, ⟨.int 0, .int 1 + .int 2, .int 1⟩, ""⟩
    (.store ⟨1, "a", .int64⟩ [i * .int 1] (.int 0 * tick + (.int 9223372036854775807 + .int 1)))

theorem fold_preserves_run_tickLoop : tickLoop.isUnmixed = true ∧ ∃ s',
    tickLoop.run .counting .zero .start = some s' ∧
    tickLoop.fold.run .counting .zero .start = some s' ∧ s'.log.length = 3 := by
  have hu : tickLoop.isUnmixed = true := by decide
  have hlog : (tickLoop.run .counting .zero .start).map (fun s => s.log.length) = some 3 := by
    decide +kernel
  obtain ⟨s', hs', hlen⟩ := Option.map_eq_some_iff.1 hlog
  exact ⟨hu, s', hs', (fold_preserves_run .counting .zero).1 tickLoop hu _ _ hs', hlen⟩

end LoopNest
