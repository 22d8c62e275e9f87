import LoopNest.Proofs.Execution
import LoopNest.Proofs.NormalForms

/-!
# Loops round by round

Tools for the run of a particular kernel. A loop from zero is run by the states between its rounds;
memory is described by the elements that have been written so far, in order; and indices are
evaluated through folding, on any machine.

* `foldlM_states`, **`Block.exec_upTo`**: a loop takes the first of its states to the last;
* `Memory.fill`: the elements `0`, `1` and so on of a buffer, written one after another;
* **`Memory.fill_of_lt`**, **`Memory.fill_of_not`**: what is there then;
* `Expr.Denotes.fold_binary`, **`Layout.denotes_fold_offset`**: folded arithmetic, and the offset of
  an element of a matrix;
* `Expr.Denotes.eval_load`, `Expr.Denotes.exec_store`: a load and a store at one index.
-/

namespace LoopNest

/-! ## Rounds -/

/-- A loop takes the first state to the last if each round takes a state to the next. -/
theorem foldlM_states {α σ : Type} {f : σ → α → Option σ} {x : Nat → α} {g : Nat → σ} {n : Nat}
    (h : ∀ t < n, f (g t) (x t) = some (g (t + 1))) :
    ((List.range n).map x).foldlM f (g 0) = some (g n) := by
  induction n with
  | zero => rfl
  | succ n ih =>
    rw [List.range_succ, List.map_append, List.foldlM_append,
      ih fun t ht => h t (Nat.lt_succ_of_lt ht)]
    simp [h n (Nat.lt_succ_self n)]

section

variable {F : Type} {M : Machine F} {w : Bounds} {ρ : Env F} {μ : Memory F} {log : Log F}

/-- The points of a range from zero. -/
theorem Range.points_upTo (n : Word) : (Range.upTo 0 n).points M w ρ μ log =
    some ((List.range n.toInt.toNat).map fun (t : Nat) => (t : Int), log) := by
  have hextent : (if n - 0 < 0 then 0 else n - 0 : Word).toInt.toNat = n.toInt.toNat := by
    rw [Int64.sub_zero]
    split_ifs with hneg
    · have := Word.lt_zero_iff.1 hneg
      rw [Int64.toInt_zero]
      omega
    · rfl
  refine Range.points_iff.2 ⟨0, _, 1, log, log, rfl, rfl, rfl, ?_⟩
  rw [hextent]
  simp

/-- **A loop from zero** takes the first of its states to the last. -/
theorem Block.exec_upTo {kind : LoopKind} {i : Var} {tag : String} {n : Word} {body : Block}
    {g : Nat → State F} (hi : i.type.isInt = true)
    (h : ∀ t < n.toInt.toNat, body.exec M w (ρ.set M i (.int t)) (g t) = some (g (t + 1))) :
    (loop kind ⟨i, .upTo 0 n, tag⟩ body).exec M w ρ (g 0) = some (g n.toInt.toNat) := by
  have hrounds := foldlM_states (f := fun s (t : Int) => body.exec M w (ρ.set M i (.int t)) s)
    (x := fun t : Nat => (t : Int)) h
  exact exec_loop_iff.2 ⟨_, (g 0).log, Range.points_upTo n, hi, hrounds⟩

end

/-! ## Memory written in order -/

namespace Memory

variable {F : Type} (M : Machine F) (μ : Memory F)

/-- The second value stays. -/
theorem store_store (v : Var) (c : List Int) (x y : Value F) :
    (μ.store M v c x).store M v c y = μ.store M v c y := by
  ext u d
  unfold store
  dsimp only
  split_ifs <;> rfl

/-- What is written to a hidden buffer is gone, and what is written to another one stays. -/
theorem restore_store {u v : Var} (h : v ≠ u) (c d : List Int) (x y : Value F) :
    (((μ.clear u).store M u c x).store M v d y).restore u μ = μ.store M v d y := by
  refine Memory.ext fun t e => ?_
  by_cases htu : t = u
  · subst htu
    rw [restore_self, store_of_ne _ _ fun hv => h hv.1.symm]
  · rw [restore_of_ne _ _ htu]
    by_cases htv : t = v ∧ e = d
    · obtain ⟨rfl, rfl⟩ := htv
      rw [store_self, store_self]
    · rw [store_of_ne _ _ htv, store_of_ne _ _ htv, store_of_ne _ _ fun hu => htu hu.1, clear,
        restore_of_ne _ _ htu]

end Memory

/-- The elements `0`, `1` and so on of a buffer up to number `q`, written in order. -/
def Memory.fill {F : Type} (M : Machine F) (μ : Memory F) (v : Var) (f : Nat → Value F) :
    Nat → Memory F
  | 0 => μ
  | q + 1 => (Memory.fill M μ v f q).store M v [(q : Int)] (f q)

namespace Memory

variable {F : Type} {M : Machine F} {μ : Memory F} {v : Var} {f : Nat → Value F}

/-- **An element that was written** holds its value. -/
theorem fill_of_lt {p q : Nat} (h : p < q) :
    (fill M μ v f q).cell v [(p : Int)] = some (M.assign v.type (f p)) := by
  induction q with
  | zero => exact absurd h (Nat.not_lt_zero p)
  | succ q ih =>
    rw [fill]
    by_cases hp : p = q
    · rw [hp, store_self]
    · rw [store_of_ne _ _ (by simpa using hp), ih (by omega)]

/-- **Nothing else is written.** -/
theorem fill_of_not {u : Var} {c : List Int} {q : Nat} (h : ¬(u = v ∧ ∃ p < q, c = [(p : Int)])) :
    (fill M μ v f q).cell u c = μ.cell u c := by
  induction q with
  | zero => rfl
  | succ q ih =>
    have hlast : ¬(u = v ∧ c = [(q : Int)]) := fun hq => h ⟨hq.1, q, Nat.lt_succ_self q, hq.2⟩
    have hrest : ¬(u = v ∧ ∃ p < q, c = [(p : Int)]) := by
      rintro ⟨hu, p, hp, hc⟩
      exact h ⟨hu, p, Nat.lt_succ_of_lt hp, hc⟩
    rw [fill, store_of_ne _ _ hlast, ih hrest]

end Memory

/-! ## Folded indices -/

section

variable {F : Type} {M : Machine F} {ρ : Env F}

namespace Expr

theorem denotes_int (n : Word) : (int n).Denotes M ρ n.toInt := fun _ _ _ => rfl

theorem denotes_var {v : Var} {n : Int} (h : ρ.value v = .int n) : (var v).Denotes M ρ n := by
  intro w μ log
  rw [eval, h]

/-- Folded arithmetic on folded operands. -/
theorem Denotes.fold_binary {op : Operator} {a b : Expr} {m n r : Int}
    (ha : a.fold.Denotes M ρ m) (hb : b.fold.Denotes M ρ n)
    (hr : op.onInts m n = some (.int r : Value F)) : (binary op a b).fold.Denotes M ρ r := by
  intro w μ log
  rw [Expr.fold_binary]
  exact (folded_foldOperation op a.fold b.fold).eval (ha w μ log) (hb w μ log)
    (fun _ => ⟨m, rfl⟩) (fun _ => ⟨n, rfl⟩) hr

end Expr

/-- **The offset of an element of a matrix.** -/
theorem Layout.denotes_fold_offset {a b : Expr} {i j : Int} (ha : a.fold.Denotes M ρ i)
    (hb : b.fold.Denotes M ρ j) (m n : Word) :
    (offset [a, b] [.int m, .int n]).fold.Denotes M ρ (i * n.toInt + j) := by
  have hfold : ∀ e : Expr, e.fold.fold = e.fold := fun e => (Expr.normal_fold e).fold_eq
  have hstride : (Expr.int 1 * .int n).fold.Denotes M ρ n.toInt :=
    .fold_binary (Expr.denotes_int 1) (Expr.denotes_int n) (by simp [Operator.onInts])
  have hrow : (a * (Expr.int 1 * .int n).fold).fold.Denotes M ρ (i * n.toInt) :=
    .fold_binary ha ((hfold _).symm ▸ hstride) rfl
  have hcolumn : (b * Expr.int 1).fold.Denotes M ρ j :=
    .fold_binary hb (Expr.denotes_int 1) (by simp [Operator.onInts])
  have hoffset : offset [a, b] [.int m, .int n] =
      (a * (Expr.int 1 * .int n).fold + b * Expr.int 1).fold := rfl
  rw [hoffset, hfold]
  exact .fold_binary hrow hcolumn rfl

variable {w : Bounds} {μ : Memory F} {log : Log F} {v : Var} {e : Expr} {c : Int}

/-- A load at one index. -/
theorem Expr.Denotes.eval_load {x : Value F} (he : e.Denotes M ρ c) (hw : w.admits v [c] = true)
    (hx : μ.cell v [c] = some x) : (load v [e]).eval M w ρ μ log = some (x, log) :=
  eval_load_iff.2 ⟨[c], numbers_of_counts (.cons he.counts .nil), hw, hx⟩

/-- A store at one index. -/
theorem Expr.Denotes.exec_store {f : Expr} {x : Value F} (he : e.Denotes M ρ c)
    (hf : f.eval M w ρ μ log = some (x, log)) (hw : w.admits v [c] = true) :
    (Block.store v [e] f).exec M w ρ ⟨μ, log⟩ = some ⟨μ.store M v [c] x, log⟩ :=
  Block.exec_store_iff.2 ⟨[c], log, x, log, numbers_of_counts (.cons he.counts .nil), hf, hw, rfl⟩

end

end LoopNest
