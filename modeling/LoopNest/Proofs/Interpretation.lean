import LoopNest.Proofs.Folding

/-!
# Interpretations

What an expression stands for by itself. Variables, elements, casts and calls have values of their
types; casts and calls are functions of what they are given, so the calls before do not matter. No
operator takes text, or an integer beside a floating-point number: an expression that has a value
has no such operator in it.

* `Value.clash`, `Machine.Strict`, `Interpretation`;
* `Interpretation.value`, `Interpretation.Denotes`: the value of an expression, and an integer that
  it stands for;
* **`Interpretation.value_eq_some_iff`**: the value is that of every evaluation;
* **`Interpretation.value_fold`**: a folded expression has the value of the expression.
-/

namespace LoopNest

/-! ## Strict machines -/

/-- Operands that no operator takes together. -/
def Value.clash {F : Type} : Value F → Value F → Bool
  | str _, _ | _, str _ | int _, float _ | float _, int _ => true
  | _, _ => false

/-- Clashing operands have no result. -/
class Machine.Strict {F : Type} (M : Machine F) : Prop where
  mixed_eq_none : ∀ op x y, x.clash y = true → M.mixed op x y = none

instance : Machine.counting.Strict where
  mixed_eq_none _ _ _ _ := rfl

section

variable {F : Type} {M : Machine F} [M.Strict]

theorem Machine.apply_of_clash {op : Operator} {x y : Value F} (h : x.clash y = true) :
    M.apply op x y = none := by
  have hmixed := Strict.mixed_eq_none (M := M) op x y h
  cases x <;> cases y <;> simp_all [Value.clash, apply, Value.whole?]

/-- An operator that does not compare gives an integer for an integer on the left. -/
theorem Machine.int_of_apply {op : Operator} (hop : op.compares = false) {m : Int} {y z : Value F}
    (hz : M.apply op (.int m) y = some z) : ∃ n, z = .int n := by
  have hwhole : ∀ n, y.whole? = some n → ∃ n, z = .int n := by
    intro n hn
    rw [M.apply_of_whole (Value.whole?_int m) hn] at hz
    have hsuits := Operator.suits_onInts (t := .int32) rfl hz
    rw [hop] at hsuits
    exact hsuits.int rfl
  cases y with
  | int n => exact hwhole n rfl
  | bool b => exact hwhole _ rfl
  | float _ | str _ =>
    rw [apply_of_clash rfl] at hz
    cases hz

namespace Expr

variable [M.Typed] {w : Bounds} {ρ : Env F} {μ : Memory F} {log log' : Log F}

/-- What has an integer type is an integer, or text. -/
theorem int_or_str_of_eval {e : Expr} {x : Value F} (ht : e.type.isInt = true)
    (hx : e.eval M w ρ μ log = some (x, log')) : (∃ n, x = .int n) ∨ ∃ s, x = .str s := by
  induction e using inductionOn generalizing x log log' with
  | int n =>
    obtain ⟨rfl, -⟩ := eval_int_iff.1 hx
    exact .inl ⟨_, rfl⟩
  | float y => simp [type, ElemType.isInt] at ht
  | str s =>
    obtain ⟨rfl, -⟩ := Prod.mk.inj (Option.some.inj hx)
    exact .inr ⟨s, rfl⟩
  | var v =>
    obtain ⟨rfl, -⟩ := Prod.mk.inj (Option.some.inj hx)
    exact .inl (Value.eq_int_of_fits (ρ.fits v) ht)
  | binary op a b iha _ =>
    obtain ⟨y, l, z, hy, -, hz⟩ := eval_binary_iff.1 hx
    have hop : op.compares = false := by
      by_contra hop
      rw [type, if_pos (by simpa using hop)] at ht
      exact absurd ht (by decide)
    rw [type, hop] at ht
    rcases iha ht hy with ⟨m, rfl⟩ | ⟨s, rfl⟩
    · exact .inl (Machine.int_of_apply hop hz)
    · rw [Machine.apply_of_clash (by cases z <;> rfl)] at hz
      cases hz
  | cast t a _ =>
    obtain ⟨y, -, rfl⟩ := eval_cast_iff.1 hx
    exact .inl (Value.eq_int_of_fits (Machine.Typed.cast_fits t y) ht)
  | load v is _ =>
    obtain ⟨c, -, -, hc⟩ := eval_load_iff.1 hx
    exact .inl (Value.eq_int_of_fits (μ.fits v c x hc) ht)
  | call t f as _ =>
    obtain ⟨xs, l, -, rfl, -⟩ := eval_call_iff.1 hx
    exact .inl (Value.eq_int_of_fits (Machine.Typed.answer_fits l t f xs) ht)

/-- **On a strict machine every expression may be folded.** -/
theorem eval_fold_of_strict (e : Expr) : Refines (e.eval M w ρ μ) (e.fold.eval M w ρ μ) := by
  induction e using inductionOn with
  | int _ | float _ | str _ | var _ => exact .refl _
  | binary op a b iha ihb =>
    rintro log ⟨z, log'⟩ h
    obtain ⟨x, l, y, hx, hy, hz⟩ := eval_binary_iff.1 h
    have hx := iha _ _ hx
    have hy := ihb _ _ hy
    -- an operand that has a result is no text
    have hintx : a.fold.type.isInt = true → ∃ n, x = .int n := by
      intro ht
      rcases int_or_str_of_eval ht hx with hn | ⟨s, rfl⟩
      · exact hn
      · rw [Machine.apply_of_clash (by cases y <;> rfl)] at hz
        cases hz
    have hinty : b.fold.type.isInt = true → ∃ n, y = .int n := by
      intro ht
      rcases int_or_str_of_eval ht hy with hn | ⟨s, rfl⟩
      · exact hn
      · rw [Machine.apply_of_clash (by cases x <;> rfl)] at hz
        cases hz
    exact (folded_foldOperation op a.fold b.fold).eval hx hy hintx hinty hz
  | cast t a iha => exact iha.cast
  | load v is ih =>
    rw [fold_load]
    exact (Refines.all ih).load fun _ _ hw hc => ⟨hw, hc⟩
  | call t f as ih =>
    rw [fold_call]
    exact (Refines.all ih).call

end Expr

end

/-! ## Interpretations -/

/-- A meaning for variables, elements, casts and calls. -/
structure Interpretation (F : Type) where
  machine : Machine F
  env : Env F
  memory : Memory F
  typed : machine.Typed
  strict : machine.Strict
  /-- An answer depends on the call alone. -/
  timeless : ∀ log t f xs, machine.answer log t f xs = machine.answer [] t f xs

namespace Interpretation

variable {F : Type} (I : Interpretation F)

instance : I.machine.Typed := I.typed

instance : I.machine.Strict := I.strict

/-- The value of an expression, if it has one. -/
def value (e : Expr) : Option (Value F) :=
  (e.eval I.machine .unchecked I.env I.memory []).map Prod.fst

/-- The expression stands for an integer. -/
def Denotes (e : Expr) (n : Int) : Prop := I.value e = some (.int n)

variable {I} {e : Expr} {x : Value F} {log log' : Log F}

variable (I) in
/-- An evaluation that succeeds does so after any other calls, with the same value. -/
def Repeats (e : Expr) : Prop :=
  ∀ {x log log'}, e.eval I.machine .unchecked I.env I.memory log = some (x, log') →
    ∀ l, ∃ l', e.eval I.machine .unchecked I.env I.memory l = some (x, l')

theorem evalAll_repeats {es : List Expr} (hes : ∀ e ∈ es, I.Repeats e) {xs : List (Value F)}
    (h : Expr.evalAll I.machine .unchecked I.env I.memory es log = some (xs, log')) (l : Log F) :
    ∃ l', Expr.evalAll I.machine .unchecked I.env I.memory es l = some (xs, l') := by
  induction es generalizing xs log log' l with
  | nil =>
    obtain ⟨rfl, -⟩ := Expr.evalAll_nil_iff.1 h
    exact ⟨l, rfl⟩
  | cons e es ih =>
    obtain ⟨x, l₁, ys, hx, hys, rfl⟩ := Expr.evalAll_cons_iff.1 h
    obtain ⟨he, hes⟩ := List.forall_mem_cons.1 hes
    obtain ⟨l₂, hx⟩ := he hx l
    obtain ⟨l₃, hys⟩ := ih hes hys l₂
    exact ⟨l₃, Expr.evalAll_cons_iff.2 ⟨x, l₂, ys, hx, hys, rfl⟩⟩

theorem repeats (e : Expr) : I.Repeats e := by
  intro x log log' h l
  induction e using Expr.inductionOn generalizing x log log' l with
  | int _ | float _ | str _ | var _ =>
    obtain ⟨rfl, -⟩ := Prod.mk.inj (Option.some.inj h)
    exact ⟨l, rfl⟩
  | binary op a b iha ihb =>
    obtain ⟨y, l₁, z, hy, hz, hop⟩ := Expr.eval_binary_iff.1 h
    obtain ⟨l₂, hy⟩ := iha hy l
    obtain ⟨l₃, hz⟩ := ihb hz l₂
    exact ⟨l₃, Expr.eval_binary_iff.2 ⟨y, l₂, z, hy, hz, hop⟩⟩
  | cast t a iha =>
    obtain ⟨y, hy, hx⟩ := Expr.eval_cast_iff.1 h
    obtain ⟨l₁, hy⟩ := iha hy l
    exact ⟨l₁, Expr.eval_cast_iff.2 ⟨y, hy, hx⟩⟩
  | load v is ih =>
    obtain ⟨c, hc, hw, hx⟩ := Expr.eval_load_iff.1 h
    obtain ⟨xs, hxs, hc⟩ := Expr.numbers_iff.1 hc
    obtain ⟨l₁, hxs⟩ := evalAll_repeats (fun e he _ _ _ h l => ih e he h l) hxs l
    exact ⟨l₁, Expr.eval_load_iff.2 ⟨c, Expr.numbers_iff.2 ⟨xs, hxs, hc⟩, hw, hx⟩⟩
  | call t f as ih =>
    obtain ⟨xs, l₁, hxs, hx, -⟩ := Expr.eval_call_iff.1 h
    obtain ⟨l₂, hxs⟩ := evalAll_repeats (fun e he _ _ _ h l => ih e he h l) hxs l
    refine ⟨_, Expr.eval_call_iff.2 ⟨xs, l₂, hxs, ?_, rfl⟩⟩
    rw [I.timeless, ← I.timeless l₁, hx]

/-- **The value of an expression is that of every evaluation**, whatever the calls before. -/
theorem value_eq_some_iff : I.value e = some x ↔
    ∀ log, ∃ log', e.eval I.machine .unchecked I.env I.memory log = some (x, log') := by
  constructor
  · intro h log
    obtain ⟨⟨y, l⟩, hy, rfl⟩ := Option.map_eq_some_iff.1 h
    exact repeats e hy log
  · intro h
    obtain ⟨l, hl⟩ := h []
    exact Option.map_eq_some_iff.2 ⟨(x, l), hl, rfl⟩

/-- **A folded expression has the value of the expression.** -/
theorem value_fold (h : I.value e = some x) : I.value e.fold = some x := by
  rw [value_eq_some_iff] at h ⊢
  intro log
  obtain ⟨log', h⟩ := h log
  exact ⟨log', Expr.eval_fold_of_strict e _ _ h⟩

theorem Denotes.fold {n : Int} (h : I.Denotes e n) : I.Denotes e.fold n := value_fold h

theorem Denotes.unique {m n : Int} (hm : I.Denotes e m) (hn : I.Denotes e n) : m = n :=
  Value.int.inj (Option.some.inj (hm.symm.trans hn))

variable (I) in
theorem denotes_literal (w : Word) : I.Denotes (.int w) w.toInt := rfl

theorem eq_of_forall₂_denotes {es : List Expr} {ms ns : List Int}
    (hm : List.Forall₂ I.Denotes es ms) (hn : List.Forall₂ I.Denotes es ns) : ms = ns := by
  have hunique : Relator.RightUnique I.Denotes := fun _ _ _ => Denotes.unique
  exact hunique.forall₂ hm hn

/-- An operator on two values. -/
theorem value_binary {op : Operator} {a b : Expr} {x y z : Value F} (ha : I.value a = some x)
    (hb : I.value b = some y) (hop : I.machine.apply op x y = some z) :
    I.value (.binary op a b) = some z := by
  refine value_eq_some_iff.2 fun log => ?_
  obtain ⟨l, ha⟩ := value_eq_some_iff.1 ha log
  obtain ⟨l', hb⟩ := value_eq_some_iff.1 hb l
  exact ⟨l', Expr.eval_binary_iff.2 ⟨x, l, y, ha, hb, hop⟩⟩

/-- An operator on two integers. -/
theorem Denotes.binary {op : Operator} {a b : Expr} {m n k : Int}
    (hop : op.onInts m n = some (.int k : Value F)) (ha : I.Denotes a m) (hb : I.Denotes b n) :
    I.Denotes (.binary op a b) k :=
  value_binary ha hb (by rw [Machine.apply_int, hop])

theorem Denotes.add {a b : Expr} {m n : Int} (ha : I.Denotes a m) (hb : I.Denotes b n) :
    I.Denotes (a + b) (m + n) := .binary rfl ha hb

theorem Denotes.sub {a b : Expr} {m n : Int} (ha : I.Denotes a m) (hb : I.Denotes b n) :
    I.Denotes (a - b) (m - n) := .binary rfl ha hb

theorem Denotes.mul {a b : Expr} {m n : Int} (ha : I.Denotes a m) (hb : I.Denotes b n) :
    I.Denotes (a * b) (m * n) := .binary rfl ha hb

theorem numbers_of_denotes {es : List Expr} {c : List Int} (h : List.Forall₂ I.Denotes es c)
    (log : Log F) :
    ∃ log', Expr.numbers I.machine .unchecked I.env I.memory es log = some (c, log') := by
  induction h generalizing log with
  | nil => exact ⟨log, rfl⟩
  | @cons e n es c he _ ih =>
    obtain ⟨l, he⟩ := value_eq_some_iff.1 he log
    obtain ⟨l', hes⟩ := ih l
    have hn := Expr.number_iff.2 ⟨.int n, he, rfl⟩
    exact ⟨l', Expr.numbers_cons_iff.2 ⟨n, l, c, hn, hes, rfl⟩⟩

/-- **A load stands for the element at its indices.** -/
theorem value_load {v : Var} {is : List Expr} {c : List Int} (h : List.Forall₂ I.Denotes is c) :
    I.value (.load v is) = I.memory.cell v c := by
  obtain ⟨l, hc⟩ := numbers_of_denotes h []
  cases hcell : I.memory.cell v c with
  | some x => exact Option.map_eq_some_iff.2 ⟨(x, l), Expr.eval_load_iff.2 ⟨c, hc, rfl, hcell⟩, rfl⟩
  | none =>
    rw [value, Option.map_eq_none_iff, Option.eq_none_iff_forall_ne_some]
    rintro ⟨x, l'⟩ hx
    obtain ⟨d, hd, -, hx⟩ := Expr.eval_load_iff.1 hx
    obtain ⟨rfl, -⟩ := Prod.mk.inj (Option.some.inj (hc.symm.trans hd))
    rw [hcell] at hx
    cases hx

end Interpretation

end LoopNest
