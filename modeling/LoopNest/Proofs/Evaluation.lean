import LoopNest.Expr.Vars
import LoopNest.Proofs.Machine
import LoopNest.Proofs.RowMajor

/-!
# Evaluating expressions

The value of an expression in an environment and a memory. Operands come from left to right, and
every call is added to the log. There is no value where an index is not a whole number, where an
element holds nothing, or where the machine gives an operator none.

A run may also watch its accesses: where a buffer has bounds, an access must have as many indices as
there are extents and lie inside them, and there is no value where it does not.

* `Bound`, `Bounds`, `Bounds.admits`, `Bounds.enter`;
* `Expr.eval`, `Expr.evalAll`, `Expr.number`, `Expr.numbers`;
* **`Expr.eval_of_isPure`**: without loads and calls neither memory, bounds nor log matter;
* **`Expr.log_eq_of_not_hasEffect`**: without calls the log stays.
-/

namespace LoopNest

/-! ## Bounds -/

/-- Where the accesses to a buffer may lie: anywhere, nowhere if they have several indices, or
inside given extents. -/
inductive Bound where
  | free
  | closed
  | box (dims : List Int)
deriving DecidableEq

/-- What is watched of each buffer. -/
abbrev Bounds := Var → Bound

namespace Bounds

/-- Nothing is watched. -/
def unchecked : Bounds := fun _ => .free

/-- An access is allowed. -/
def admits (w : Bounds) (v : Var) (c : List Int) : Bool :=
  match w v with
  | .free => true
  | .closed => c.length < 2
  | .box dims => Layout.Inside dims c

/-- An allocation of several dimensions sets the extents of its buffer, if that is watched. -/
def enter (w : Bounds) (v : Var) (dims : List Int) : Bounds :=
  if 1 < dims.length ∧ w v ≠ .free then fun u => if u = v then .box dims else w u else w

/-- Read one element, if that is allowed. -/
def read {F : Type} (w : Bounds) (μ : Memory F) (v : Var) (c : List Int) : Option (Value F) :=
  if w.admits v c then μ.cell v c else none

/-- Write one element, if that is allowed. -/
def write {F : Type} (w : Bounds) (M : Machine F) (μ : Memory F) (v : Var) (c : List Int)
    (x : Value F) : Option (Memory F) :=
  if w.admits v c then some (μ.store M v c x) else none

theorem read_eq_some_iff {F : Type} {w : Bounds} {μ : Memory F} {v : Var} {c : List Int}
    {x : Value F} : w.read μ v c = some x ↔ w.admits v c = true ∧ μ.cell v c = some x := by
  unfold read
  split <;> simp_all

theorem write_eq_some_iff {F : Type} {w : Bounds} {M : Machine F} {μ ν : Memory F} {v : Var}
    {c : List Int} {x : Value F} :
    w.write M μ v c x = some ν ↔ w.admits v c = true ∧ μ.store M v c x = ν := by
  unfold write
  split <;> simp_all

@[simp] theorem admits_unchecked (v : Var) (c : List Int) : unchecked.admits v c = true := rfl

@[simp] theorem enter_unchecked (v : Var) (dims : List Int) : unchecked.enter v dims = unchecked :=
  if_neg fun h => h.2 rfl

end Bounds

/-! ## Evaluation -/

namespace Expr

/-- Induction on an expression, with the claim for every member of a list of operands. -/
theorem inductionOn {P : Expr → Prop} (e : Expr) (int : ∀ n, P (int n)) (float : ∀ x, P (float x))
    (str : ∀ s, P (str s)) (var : ∀ v, P (var v))
    (binary : ∀ op a b, P a → P b → P (binary op a b)) (cast : ∀ t a, P a → P (cast t a))
    (load : ∀ v is, (∀ e ∈ is, P e) → P (load v is))
    (call : ∀ t f as, (∀ e ∈ as, P e) → P (call t f as)) : P e :=
  Expr.rec (motive_2 := fun es => ∀ e ∈ es, P e) int float str var binary cast load call
    (fun _ h => absurd h List.not_mem_nil)
    (fun _ _ he hes => List.forall_mem_cons.2 ⟨he, hes⟩) e

section

variable {F : Type} (M : Machine F) (w : Bounds) (ρ : Env F) (μ : Memory F)

mutual

/-- The value of an expression, and the log after it. -/
def eval : Expr → Log F → Option (Value F × Log F)
  | int n, log => some (.int n.toInt, log)
  | float x, log => some (.float (M.literal x), log)
  | str s, log => some (.str s, log)
  | var v, log => some (ρ.value v, log)
  | binary op a b, log => do
    let (x, log) ← a.eval log
    let (y, log) ← b.eval log
    let z ← M.apply op x y
    some (z, log)
  | cast t a, log => do
    let (x, log) ← a.eval log
    some (M.cast t x, log)
  | load v is, log => do
    let (xs, log) ← evalAll is log
    let c ← xs.mapM Value.whole?
    let x ← w.read μ v c
    some (x, log)
  | call t f as, log => do
    let (xs, log) ← evalAll as log
    some (M.answer log t f xs, log ++ [⟨t, f, xs⟩])

/-- The values of a list of expressions. -/
def evalAll : List Expr → Log F → Option (List (Value F) × Log F)
  | [], log => some ([], log)
  | e :: es, log => do
    let (x, log) ← e.eval log
    let (xs, log) ← evalAll es log
    some (x :: xs, log)

end

/-- The value of an expression that must be a whole number. -/
def number (e : Expr) (log : Log F) : Option (Int × Log F) := do
  let (x, log) ← e.eval M w ρ μ log
  let n ← x.whole?
  some (n, log)

/-- The values of a list of expressions that must be whole numbers. -/
def numbers (es : List Expr) (log : Log F) : Option (List Int × Log F) := do
  let (xs, log) ← evalAll M w ρ μ es log
  let c ← xs.mapM Value.whole?
  some (c, log)

end

/-! ## What an evaluation is made of -/

theorem literal?_eq_some_iff {e : Expr} {n : Word} : e.literal? = some n ↔ e = int n := by
  cases e <;> simp [literal?]

section

variable {F : Type} {M : Machine F} {w : Bounds} {ρ : Env F} {μ : Memory F} {log log' : Log F}

theorem eval_int_iff {n : Word} {x : Value F} :
    (int n).eval M w ρ μ log = some (x, log') ↔ x = .int n.toInt ∧ log' = log := by
  simp only [eval, Option.some.injEq, Prod.mk.injEq, eq_comm]

theorem eval_binary_iff {op : Operator} {a b : Expr} {z : Value F} :
    (binary op a b).eval M w ρ μ log = some (z, log') ↔ ∃ x l y, a.eval M w ρ μ log = some (x, l) ∧
      b.eval M w ρ μ l = some (y, log') ∧ M.apply op x y = some z := by
  simp only [eval, Option.bind_eq_bind, Option.bind_eq_some_iff, Prod.exists, Option.some.injEq,
    Prod.mk.injEq]
  constructor
  · rintro ⟨x, l, ha, y, l', hb, z', hz, rfl, rfl⟩
    exact ⟨x, l, y, ha, hb, hz⟩
  · rintro ⟨x, l, y, ha, hb, hz⟩
    exact ⟨x, l, ha, y, log', hb, z, hz, rfl, rfl⟩

theorem eval_cast_iff {t : ElemType} {a : Expr} {z : Value F} :
    (cast t a).eval M w ρ μ log = some (z, log') ↔
      ∃ x, a.eval M w ρ μ log = some (x, log') ∧ M.cast t x = z := by
  simp only [eval, Option.bind_eq_bind, Option.bind_eq_some_iff, Prod.exists, Option.some.injEq,
    Prod.mk.injEq]
  constructor
  · rintro ⟨x, l, ha, rfl, rfl⟩
    exact ⟨x, ha, rfl⟩
  · rintro ⟨x, ha, rfl⟩
    exact ⟨x, log', ha, rfl, rfl⟩

theorem number_iff {e : Expr} {n : Int} :
    e.number M w ρ μ log = some (n, log') ↔
      ∃ x, e.eval M w ρ μ log = some (x, log') ∧ x.whole? = some n := by
  simp only [number, Option.bind_eq_bind, Option.bind_eq_some_iff, Prod.exists, Option.some.injEq,
    Prod.mk.injEq]
  constructor
  · rintro ⟨x, l, he, m, hm, rfl, rfl⟩
    exact ⟨x, he, hm⟩
  · rintro ⟨x, he, hn⟩
    exact ⟨x, log', he, n, hn, rfl, rfl⟩

theorem numbers_iff {es : List Expr} {c : List Int} :
    numbers M w ρ μ es log = some (c, log') ↔
      ∃ xs, evalAll M w ρ μ es log = some (xs, log') ∧ xs.mapM Value.whole? = some c := by
  simp only [numbers, Option.bind_eq_bind, Option.bind_eq_some_iff, Prod.exists, Option.some.injEq,
    Prod.mk.injEq]
  constructor
  · rintro ⟨xs, l, he, d, hd, rfl, rfl⟩
    exact ⟨xs, he, hd⟩
  · rintro ⟨xs, he, hc⟩
    exact ⟨xs, log', he, c, hc, rfl, rfl⟩

theorem eval_load_iff {v : Var} {is : List Expr} {z : Value F} :
    (load v is).eval M w ρ μ log = some (z, log') ↔ ∃ c, numbers M w ρ μ is log = some (c, log') ∧
      w.admits v c = true ∧ μ.cell v c = some z := by
  simp only [eval, numbers_iff, Option.bind_eq_bind, Option.bind_eq_some_iff, Prod.exists,
    Option.some.injEq, Prod.mk.injEq, Bounds.read_eq_some_iff]
  constructor
  · rintro ⟨xs, l, hxs, c, hc, z', ⟨hw, hz⟩, rfl, rfl⟩
    exact ⟨c, ⟨xs, hxs, hc⟩, hw, hz⟩
  · rintro ⟨c, ⟨xs, hxs, hc⟩, hw, hz⟩
    exact ⟨xs, log', hxs, c, hc, z, ⟨hw, hz⟩, rfl, rfl⟩

theorem eval_call_iff {t : ElemType} {f : String} {as : List Expr} {z : Value F} :
    (call t f as).eval M w ρ μ log = some (z, log') ↔ ∃ xs l,
      evalAll M w ρ μ as log = some (xs, l) ∧ M.answer l t f xs = z ∧ l ++ [⟨t, f, xs⟩] = log' := by
  simp only [eval, Option.bind_eq_bind, Option.bind_eq_some_iff, Prod.exists, Option.some.injEq,
    Prod.mk.injEq]

theorem evalAll_nil_iff {xs : List (Value F)} :
    evalAll M w ρ μ [] log = some (xs, log') ↔ xs = [] ∧ log' = log := by
  simp only [evalAll, Option.some.injEq, Prod.mk.injEq, eq_comm]

theorem evalAll_cons_iff {e : Expr} {es : List Expr} {zs : List (Value F)} :
    evalAll M w ρ μ (e :: es) log = some (zs, log') ↔ ∃ x l xs, e.eval M w ρ μ log = some (x, l) ∧
      evalAll M w ρ μ es l = some (xs, log') ∧ zs = x :: xs := by
  simp only [evalAll, Option.bind_eq_bind, Option.bind_eq_some_iff, Prod.exists, Option.some.injEq,
    Prod.mk.injEq]
  constructor
  · rintro ⟨x, l, he, xs, l', hes, rfl, rfl⟩
    exact ⟨x, l, xs, he, hes, rfl⟩
  · rintro ⟨x, l, xs, he, hes, rfl⟩
    exact ⟨x, l, he, xs, log', hes, rfl, rfl⟩

theorem numbers_nil_iff {c : List Int} :
    numbers M w ρ μ [] log = some (c, log') ↔ c = [] ∧ log' = log := by
  simp only [numbers_iff, evalAll_nil_iff]
  constructor
  · rintro ⟨xs, ⟨rfl, rfl⟩, hc⟩
    exact ⟨by simpa using hc.symm, rfl⟩
  · rintro ⟨rfl, rfl⟩
    exact ⟨[], ⟨rfl, rfl⟩, rfl⟩

theorem numbers_cons_iff {e : Expr} {es : List Expr} {c : List Int} :
    numbers M w ρ μ (e :: es) log = some (c, log') ↔ ∃ n l d, e.number M w ρ μ log = some (n, l) ∧
      numbers M w ρ μ es l = some (d, log') ∧ c = n :: d := by
  simp only [numbers_iff, number_iff, evalAll_cons_iff]
  constructor
  · rintro ⟨zs, ⟨x, l, xs, he, hes, rfl⟩, hc⟩
    simp only [List.mapM_cons, Option.bind_eq_bind, Option.bind_eq_some_iff, Option.pure_def,
      Option.some.injEq] at hc
    obtain ⟨n, hn, d, hd, rfl⟩ := hc
    exact ⟨n, l, d, ⟨x, he, hn⟩, ⟨xs, hes, hd⟩, rfl⟩
  · rintro ⟨n, l, d, ⟨x, he, hn⟩, ⟨xs, hes, hd⟩, rfl⟩
    refine ⟨x :: xs, ⟨x, l, xs, he, hes, rfl⟩, ?_⟩
    simp [List.mapM_cons, hn, hd]

theorem length_numbers {es : List Expr} {c : List Int}
    (h : numbers M w ρ μ es log = some (c, log')) : c.length = es.length := by
  induction es generalizing c log with
  | nil =>
    obtain ⟨rfl, -⟩ := numbers_nil_iff.1 h
    rfl
  | cons e es ih =>
    obtain ⟨n, l, d, -, hd, rfl⟩ := numbers_cons_iff.1 h
    rw [List.length_cons, ih hd, List.length_cons]

end

end Expr

/-! ## Comparing two evaluations -/

/-- Whatever the first evaluation gives, the second gives as well. -/
def Refines {F α : Type} (f g : Log F → Option (α × Log F)) : Prop :=
  ∀ log r, f log = some r → g log = some r

namespace Refines

variable {F α : Type}

theorem refl (f : Log F → Option (α × Log F)) : Refines f f := fun _ _ h => h

theorem trans {f g h : Log F → Option (α × Log F)} (hfg : Refines f g) (hgh : Refines g h) :
    Refines f h := fun log r hr => hgh log r (hfg log r hr)

variable {M : Machine F} {w w' : Bounds} {ρ ρ' : Env F} {μ μ' : Memory F}

theorem binary {op : Operator} {a b a' b' : Expr}
    (ha : Refines (a.eval M w ρ μ) (a'.eval M w' ρ' μ'))
    (hb : Refines (b.eval M w ρ μ) (b'.eval M w' ρ' μ')) :
    Refines ((Expr.binary op a b).eval M w ρ μ) ((Expr.binary op a' b').eval M w' ρ' μ') := by
  rintro log ⟨z, log'⟩ h
  obtain ⟨x, l, y, hx, hy, hz⟩ := Expr.eval_binary_iff.1 h
  have hx := ha _ _ hx
  have hy := hb _ _ hy
  exact Expr.eval_binary_iff.2 ⟨x, l, y, hx, hy, hz⟩

theorem cast {t : ElemType} {a a' : Expr} (ha : Refines (a.eval M w ρ μ) (a'.eval M w' ρ' μ')) :
    Refines ((Expr.cast t a).eval M w ρ μ) ((Expr.cast t a').eval M w' ρ' μ') := by
  rintro log ⟨z, log'⟩ h
  obtain ⟨x, hx, hz⟩ := Expr.eval_cast_iff.1 h
  exact Expr.eval_cast_iff.2 ⟨x, ha _ _ hx, hz⟩

theorem call {t : ElemType} {f : String} {as as' : List Expr}
    (h : Refines (Expr.evalAll M w ρ μ as) (Expr.evalAll M w' ρ' μ' as')) :
    Refines ((Expr.call t f as).eval M w ρ μ) ((Expr.call t f as').eval M w' ρ' μ') := by
  rintro log ⟨z, log'⟩ hz
  obtain ⟨xs, l, hxs, hz, hl⟩ := Expr.eval_call_iff.1 hz
  exact Expr.eval_call_iff.2 ⟨xs, l, h _ _ hxs, hz, hl⟩

theorem nil : Refines (Expr.evalAll M w ρ μ []) (Expr.evalAll M w' ρ' μ' []) := by
  rintro log ⟨xs, log'⟩ h
  exact Expr.evalAll_nil_iff.2 (Expr.evalAll_nil_iff.1 h)

theorem cons {e e' : Expr} {es es' : List Expr} (he : Refines (e.eval M w ρ μ) (e'.eval M w' ρ' μ'))
    (hes : Refines (Expr.evalAll M w ρ μ es) (Expr.evalAll M w' ρ' μ' es')) :
    Refines (Expr.evalAll M w ρ μ (e :: es)) (Expr.evalAll M w' ρ' μ' (e' :: es')) := by
  rintro log ⟨zs, log'⟩ h
  obtain ⟨x, l, xs, hx, hxs, rfl⟩ := Expr.evalAll_cons_iff.1 h
  have hx := he _ _ hx
  have hxs := hes _ _ hxs
  exact Expr.evalAll_cons_iff.2 ⟨x, l, xs, hx, hxs, rfl⟩

theorem number {e e' : Expr} (h : Refines (e.eval M w ρ μ) (e'.eval M w' ρ' μ')) :
    Refines (e.number M w ρ μ) (e'.number M w' ρ' μ') := by
  rintro log ⟨n, log'⟩ hn
  obtain ⟨x, hx, hn⟩ := Expr.number_iff.1 hn
  exact Expr.number_iff.2 ⟨x, h _ _ hx, hn⟩

theorem numbers {es es' : List Expr}
    (h : Refines (Expr.evalAll M w ρ μ es) (Expr.evalAll M w' ρ' μ' es')) :
    Refines (Expr.numbers M w ρ μ es) (Expr.numbers M w' ρ' μ' es') := by
  rintro log ⟨c, log'⟩ hc
  obtain ⟨xs, hxs, hc⟩ := Expr.numbers_iff.1 hc
  exact Expr.numbers_iff.2 ⟨xs, h _ _ hxs, hc⟩

/-- A load of the same element, where the second run allows it and finds the same there. -/
theorem load {v : Var} {is is' : List Expr}
    (h : Refines (Expr.evalAll M w ρ μ is) (Expr.evalAll M w' ρ' μ' is'))
    (hread : ∀ c x, w.admits v c = true → μ.cell v c = some x →
      w'.admits v c = true ∧ μ'.cell v c = some x) :
    Refines ((Expr.load v is).eval M w ρ μ) ((Expr.load v is').eval M w' ρ' μ') := by
  rintro log ⟨z, log'⟩ hz
  obtain ⟨c, hc, hw, hz⟩ := Expr.eval_load_iff.1 hz
  have hc := numbers h _ _ hc
  exact Expr.eval_load_iff.2 ⟨c, hc, hread c z hw hz⟩

/-- A list is refined when its members are. -/
theorem all {es : List Expr} {f : Expr → Expr}
    (h : ∀ e ∈ es, Refines (e.eval M w ρ μ) ((f e).eval M w' ρ' μ')) :
    Refines (Expr.evalAll M w ρ μ es) (Expr.evalAll M w' ρ' μ' (es.map f)) := by
  induction es with
  | nil => exact nil
  | cons e es ih =>
    obtain ⟨he, hes⟩ := List.forall_mem_cons.1 h
    exact cons he (ih hes)

end Refines

namespace Expr

variable {F : Type} {M : Machine F}

/-! ## Watching an evaluation -/

mutual

/-- **Watching changes nothing but what is allowed.** -/
theorem eval_unchecked (w : Bounds) (ρ : Env F) (μ : Memory F) :
    ∀ e : Expr, Refines (e.eval M w ρ μ) (e.eval M .unchecked ρ μ)
  | int _ | float _ | str _ | var _ => Refines.refl _
  | binary _ a b => (eval_unchecked w ρ μ a).binary (eval_unchecked w ρ μ b)
  | cast _ a => (eval_unchecked w ρ μ a).cast
  | load _ is => (evalAll_unchecked w ρ μ is).load fun _ _ _ h => ⟨rfl, h⟩
  | call _ _ as => (evalAll_unchecked w ρ μ as).call

theorem evalAll_unchecked (w : Bounds) (ρ : Env F) (μ : Memory F) :
    ∀ es : List Expr, Refines (evalAll M w ρ μ es) (evalAll M .unchecked ρ μ es)
  | [] => Refines.nil
  | e :: es => (eval_unchecked w ρ μ e).cons (evalAll_unchecked w ρ μ es)

end

/-! ## Calls and loads -/

mutual

/-- **Without calls the log stays.** -/
theorem log_eq_of_not_hasEffect {w : Bounds} {ρ : Env F} {μ : Memory F} {log log' : Log F} :
    ∀ {e : Expr} {x : Value F}, e.hasEffect = false → e.eval M w ρ μ log = some (x, log') →
      log' = log
  | int _, x, _, h | float _, x, _, h | str _, x, _, h | var _, x, _, h => by
    simp only [eval, Option.some.injEq, Prod.mk.injEq] at h
    exact h.2.symm
  | binary op a b, z, he, h => by
    simp only [hasEffect, Bool.or_eq_false_iff] at he
    obtain ⟨x, l, y, ha, hb, -⟩ := eval_binary_iff.1 h
    exact (log_eq_of_not_hasEffect he.2 hb).trans (log_eq_of_not_hasEffect he.1 ha)
  | cast t a, z, he, h => by
    obtain ⟨x, ha, -⟩ := eval_cast_iff.1 h
    exact log_eq_of_not_hasEffect (by simpa only [hasEffect] using he) ha
  | load v is, z, he, h => by
    obtain ⟨c, hc, -⟩ := eval_load_iff.1 h
    obtain ⟨xs, hxs, -⟩ := numbers_iff.1 hc
    exact log_eq_of_not_anyEffect (by simpa only [hasEffect] using he) hxs
  | call t f as, z, he, h => by simp [hasEffect] at he

theorem log_eq_of_not_anyEffect {w : Bounds} {ρ : Env F} {μ : Memory F} {log log' : Log F} :
    ∀ {es : List Expr} {xs : List (Value F)}, anyEffect es = false →
      evalAll M w ρ μ es log = some (xs, log') → log' = log
  | [], xs, _, h => (evalAll_nil_iff.1 h).2
  | e :: es, xs, he, h => by
    simp only [anyEffect, Bool.or_eq_false_iff] at he
    obtain ⟨x, l, ys, hx, hes, -⟩ := evalAll_cons_iff.1 h
    exact (log_eq_of_not_anyEffect he.2 hes).trans (log_eq_of_not_hasEffect he.1 hx)

end

/-- An expression without loads and calls. -/
def isPure : Expr → Bool
  | binary _ a b => a.isPure && b.isPure
  | cast _ a => a.isPure
  | load _ _ | call _ _ _ => false
  | _ => true

/-- **Without loads and calls an evaluation depends on the environment alone**, and there only on
the variables of the expression. -/
theorem eval_of_isPure {ρ τ : Env F} : ∀ {e : Expr}, e.isPure = true →
    (∀ v ∈ e.vars, ρ.value v = τ.value v) → ∃ x : Option (Value F), ∀ w μ log,
      e.eval M w ρ μ log = x.map (·, log) ∧ e.eval M w τ μ log = x.map (·, log)
  | int n, _, _ => ⟨some (.int n.toInt), fun _ _ _ => ⟨rfl, rfl⟩⟩
  | float y, _, _ => ⟨some (.float (M.literal y)), fun _ _ _ => ⟨rfl, rfl⟩⟩
  | str s, _, _ => ⟨some (.str s), fun _ _ _ => ⟨rfl, rfl⟩⟩
  | var v, _, hv => by
    refine ⟨some (ρ.value v), fun _ _ _ => ⟨rfl, ?_⟩⟩
    rw [eval, ← hv v (by simp [vars])]
    rfl
  | binary op a b, hp, hv => by
    simp only [isPure, Bool.and_eq_true] at hp
    simp only [vars, List.mem_append] at hv
    obtain ⟨x, hx⟩ := eval_of_isPure hp.1 fun v h => hv v (.inl h)
    obtain ⟨y, hy⟩ := eval_of_isPure hp.2 fun v h => hv v (.inr h)
    refine ⟨x.bind fun x => y.bind fun y => M.apply op x y, fun w μ log => ?_⟩
    simp only [eval, hx, hy]
    cases x with
    | none => exact ⟨rfl, rfl⟩
    | some x =>
      cases y with
      | none => simp
      | some y => cases h : M.apply op x y <;> simp [h]
  | cast t a, hp, hv => by
    obtain ⟨x, hx⟩ := eval_of_isPure (e := a) hp (by simpa only [vars] using hv)
    refine ⟨x.map (M.cast t), fun w μ log => ?_⟩
    simp only [eval, hx]
    cases x <;> exact ⟨rfl, rfl⟩
  | load _ _, hp, _ | call _ _ _, hp, _ => by simp [isPure] at hp

theorem log_eq_of_isPure {w : Bounds} {ρ : Env F} {μ : Memory F} {log log' : Log F} {e : Expr}
    {x : Value F} (hp : e.isPure = true) (h : e.eval M w ρ μ log = some (x, log')) :
    log' = log := by
  obtain ⟨y, hy⟩ := eval_of_isPure (M := M) hp fun v _ => Eq.refl (ρ.value v)
  rw [(hy w μ log).1] at h
  obtain ⟨z, -, hz⟩ := Option.map_eq_some_iff.1 h
  exact (Prod.mk.inj hz).2.symm

/-- The expression stands for an integer, whatever the memory and the calls so far. -/
def Denotes (M : Machine F) (ρ : Env F) (e : Expr) (n : Int) : Prop :=
  ∀ w μ log, e.eval M w ρ μ log = some (.int n, log)

/-- The expression stands for a whole number, whatever the memory and the calls so far. -/
def Counts (M : Machine F) (ρ : Env F) (e : Expr) (n : Int) : Prop :=
  ∀ w μ log, e.number M w ρ μ log = some (n, log)

theorem Denotes.counts {ρ : Env F} {e : Expr} {n : Int} (h : e.Denotes M ρ n) : e.Counts M ρ n :=
  fun w μ log => number_iff.2 ⟨.int n, h w μ log, rfl⟩

theorem Denotes.of_agree {ρ τ : Env F} {e : Expr} {n : Int} (h : e.Denotes M ρ n)
    (hp : e.isPure = true) (hv : ∀ v ∈ e.vars, ρ.value v = τ.value v) : e.Denotes M τ n := by
  obtain ⟨x, hx⟩ := eval_of_isPure (M := M) hp hv
  intro w μ log
  rw [(hx w μ log).2, ← (hx w μ log).1]
  exact h w μ log

theorem counts_of_isPure {ρ τ : Env F} {e : Expr} {w : Bounds} {μ : Memory F} {log log' : Log F}
    {n : Int} (hp : e.isPure = true) (hv : ∀ v ∈ e.vars, ρ.value v = τ.value v)
    (h : e.number M w ρ μ log = some (n, log')) : e.Counts M τ n := by
  obtain ⟨y, hy⟩ := eval_of_isPure (M := M) hp hv
  obtain ⟨x, hx, hn⟩ := number_iff.1 h
  rw [(hy w μ log).1] at hx
  obtain ⟨z, rfl, hz⟩ := Option.map_eq_some_iff.1 hx
  obtain ⟨rfl, -⟩ := Prod.mk.inj hz
  exact fun w μ log => number_iff.2 ⟨z, (hy w μ log).2, hn⟩

theorem numbers_of_counts {ρ : Env F} {w : Bounds} {μ : Memory F} {log : Log F} {es : List Expr}
    {ns : List Int} (h : List.Forall₂ (Counts M ρ) es ns) :
    numbers M w ρ μ es log = some (ns, log) := by
  induction h with
  | nil => rfl
  | @cons e n es ns he _ ih => exact numbers_cons_iff.2 ⟨n, log, ns, he w μ log, ih, rfl⟩

theorem counts_of_numbers {ρ : Env F} {w : Bounds} {μ : Memory F} {log log' : Log F}
    {es : List Expr} {ns : List Int} (hp : ∀ e ∈ es, e.isPure = true)
    (h : numbers M w ρ μ es log = some (ns, log')) :
    List.Forall₂ (Counts M ρ) es ns ∧ log' = log := by
  induction es generalizing ns log with
  | nil =>
    obtain ⟨rfl, rfl⟩ := numbers_nil_iff.1 h
    exact ⟨.nil, rfl⟩
  | cons e es ih =>
    obtain ⟨hpe, hp⟩ := List.forall_mem_cons.1 hp
    obtain ⟨n, l, ms, hn, hms, rfl⟩ := numbers_cons_iff.1 h
    obtain ⟨hcounts, rfl⟩ := ih hp hms
    have he : e.Counts M ρ n := counts_of_isPure hpe (fun _ _ => rfl) hn
    obtain ⟨-, hl⟩ := Prod.mk.inj (Option.some.inj (hn.symm.trans (he w μ log)))
    exact ⟨.cons he hcounts, hl⟩

end Expr

end LoopNest
