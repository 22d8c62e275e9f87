import LoopNest.Demo
import LoopNest.Proofs.Programs
import LoopNest.Proofs.Rounds

/-!
# The product of two matrices

The demonstration kernel `Demo.gemm`, from its program to the memory after a run. Floating-point
arithmetic stays uninterpreted: the machine is any, and each sum is compared as it is written, from
left to right.

* `Gemm.records_gemm`, **`Gemm.lower_gemm`**: the kernel is lowered to the nest of three loops,
  whose indices are flattened and folded;
* `Gemm.exec_sum`, `Gemm.exec_element`: the run of the inner loop accumulates one sum, and that of
  the statements around it stores the sum and nothing else;
* **`Gemm.exec_body`**: the run of the nest writes the elements one after another, row by row;
* **`Gemm.gemm_multiplies`**: the kernel lowers, and its body runs and multiplies the matrices.
-/

namespace LoopNest

namespace Demo.Gemm

/-! ## What is recorded -/

/-- The left factor. -/
def left : Var := ⟨0, "A", .float32⟩

/-- The right factor. -/
def right : Var := ⟨1, "B", .float32⟩

/-- The product. -/
def target : Var := ⟨2, "C", .float32⟩

def row : Var := ⟨3, "i", .int32⟩

def column : Var := ⟨4, "j", .int32⟩

/-- The array of one element in which a sum is accumulated. -/
def sum : Var := ⟨5, "acc", .float32⟩

def depth : Var := ⟨6, "k", .int32⟩

/-- The sum so far and one more product, by the indices of the factors. -/
def next (is js : List Expr) : Expr := .load sum [.int 0] + .load left is * .load right js

/-- The loop that accumulates one sum. -/
def products (k : Word) (is js : List Expr) : Block :=
  .loop .reduce ⟨depth, .upTo 0 k, ""⟩ (.store sum [.int 0] (next is js))

/-- The statements for one element: the sum is accumulated in an array of its own, and stored. -/
def element (k : Word) (is js cs : List Expr) : Block :=
  .alloc sum [.int 1] "local" <| .seq (.store sum [.int 0] (.float .zero)) <|
    .seq (products k is js) (.store target cs (.load sum [.int 0]))

/-- All elements, row by row. -/
def nest (m n k : Word) (is js cs : List Expr) : Block :=
  .loop .spatial ⟨row, .upTo 0 m, "y"⟩ <| .loop .spatial ⟨column, .upTo 0 n, "x"⟩ <|
    element k is js cs

section

variable (m n k : Word)

/-- The script that the kernel records. -/
def script : Script :=
  .loop .spatial ⟨some ["i", "j"], some [.upTo 0 m, .upTo 0 n], some ["y", "x"]⟩
    [("i", .upTo 0 m, "y"), ("j", .upTo 0 n, "x")] rfl
    (.allocate [.int 1] "local" .float32 "acc"
      (.statement (.store (.root sum [.int 1] "local") [.at (.int 0)] (.float .zero) sum [.int 0]
          rfl)
        (.loop .reduce (.one "k" (.upTo 0 k)) [("k", .upTo 0 k, "")] rfl
          (.statement (.store (.root sum [.int 1] "local") [.at (.int 0)]
            (next [row, depth] [depth, column]) sum [.int 0] rfl) .done)
          (.statement (.store (.root target [.int m, .int n] "global") [.at row, .at column]
            (.load sum [.int 0]) target [row, column] rfl) .done))))
    .done

/-- The script stands for the nest of loops, with one index for each dimension. -/
theorem reading_script : (script m n k).reading 3 =
    .ok [nest m n k [row, depth] [depth, column] [row, column]] := rfl

/-- The program of the kernel does what the script does. -/
theorem records_gemm : ((gemm m n k).body (gemm m n k).views []).Records (script m n k) 3 := by
  unfold script
  dsimp only [gemm, Definition.views, List.map_cons, List.map_nil]
  refine .last (.loop _ ?_ .done)
  refine .allocate (.statement (fun _ => rfl) (.loop _ ?_ ?_))
  -- The inner loop selects three elements and stores; behind it, one is selected and stored.
  · refine .select rfl (.select rfl (.select rfl ?_))
    exact .last (.statement (fun _ => rfl) .done)
  · refine .select rfl ?_
    exact .last (.statement (fun _ => rfl) .done)

/-- The index of an element of a matrix, flattened and folded. -/
def index (extents : List Word) (is : List Expr) : List Expr :=
  [(Layout.offset is (extents.map .int)).fold]

/-- The statements for one element, flattened and folded. -/
def flatElement : Block :=
  element k (index [m, k] [row, depth]) (index [k, n] [depth, column]) (index [m, n] [row, column])

/-- The body of the kernel, flattened and folded. -/
def body : Block :=
  nest m n k (index [m, k] [row, depth]) (index [k, n] [depth, column]) (index [m, n] [row, column])

theorem apply_nest : Options.standard.apply (gemm m n k).views
    (nest m n k [row, depth] [depth, column] [row, column]) = body m n k := rfl

/-- **The kernel is lowered** to its body, for all sizes. -/
theorem lower_gemm : (gemm m n k).lower = .ok ⟨(gemm m n k).signature, body m n k, none⟩ := by
  rw [Definition.lower_of_records (records_gemm m n k) (reading_script m n k), ← apply_nest]
  rfl

end

/-! ## What is run -/

/-- The factors and the product are watched: only their elements may be accessed. -/
def watched (m n k : Word) : Bounds := fun v =>
  if v = left then .box [m.toInt * k.toInt]
  else if v = right then .box [k.toInt * n.toInt]
  else if v = target then .box [m.toInt * n.toInt]
  else .free

/-- The factors are in memory, their elements row by row. -/
structure Holds {F : Type} (m n k : Word) (a b : Int → F) (μ : Memory F) : Prop where
  left : ∀ p, 0 ≤ p → p < m.toInt * k.toInt → μ.cell left [p] = some (.float (a p))
  right : ∀ p, 0 ≤ p → p < k.toInt * n.toInt → μ.cell right [p] = some (.float (b p))

/-- The sum of the first `t` products of row `i` and column `j`, from left to right. -/
def dot {F : Type} (M : Machine F) (n k : Word) (a b : Int → F) (i j : Int) (t : Nat) : F :=
  (List.range t).foldl (fun x (t : Nat) =>
    M.arith .add x (M.arith .mul (a (i * k.toInt + t)) (b (t * n.toInt + j)))) (M.literal .zero)

section

variable {F : Type} {M : Machine F} {m n k : Word} {a b : Int → F} {μ : Memory F} {ρ : Env F}
  {log : Log F} {i j : Int}

theorem watched_left {p : Int} (h0 : 0 ≤ p) (hp : p < m.toInt * k.toInt) :
    (watched m n k).admits left [p] = true := decide_eq_true (.cons ⟨h0, hp⟩ .nil)

theorem watched_right {p : Int} (h0 : 0 ≤ p) (hp : p < k.toInt * n.toInt) :
    (watched m n k).admits right [p] = true := decide_eq_true (.cons ⟨h0, hp⟩ .nil)

theorem watched_target {p : Int} (h0 : 0 ≤ p) (hp : p < m.toInt * n.toInt) :
    (watched m n k).admits target [p] = true := decide_eq_true (.cons ⟨h0, hp⟩ .nil)

theorem watched_sum (c : List Int) : (watched m n k).admits sum c = true := rfl

/-- The offset of an element lies within the matrix. -/
theorem offset_mem {i j m n : Int} (hi : 0 ≤ i ∧ i < m) (hj : 0 ≤ j ∧ j < n) :
    0 ≤ i * n + j ∧ i * n + j < m * n := by
  have hin : Layout.Inside [m, n] [i, j] := .cons hi (.cons hj .nil)
  simpa [Layout.rowMajor] using And.intro (Layout.rowMajor_nonneg hin) (Layout.rowMajor_lt hin)

/-- Memory that agrees on the factors holds them too. -/
theorem Holds.of_eq {ν : Memory F} (h : Holds m n k a b μ)
    (hleft : ν.cell Gemm.left = μ.cell Gemm.left) (hright : ν.cell Gemm.right = μ.cell Gemm.right) :
    Holds m n k a b ν := by
  constructor
  · intro p h0 hp
    rw [hleft, h.left p h0 hp]
  · intro p h0 hp
    rw [hright, h.right p h0 hp]

theorem Holds.store (h : Holds m n k a b μ) {v : Var} (hl : v ≠ Gemm.left) (hr : v ≠ Gemm.right)
    (c : List Int) (x : Value F) : Holds m n k a b (μ.store M v c x) := by
  refine h.of_eq ?_ ?_
  · funext d
    exact Memory.store_of_ne _ _ (fun hv => hl hv.1.symm) x
  · funext d
    exact Memory.store_of_ne _ _ (fun hv => hr hv.1.symm) x

/-- One more product is added on the right. -/
theorem dot_succ (t : Nat) : dot M n k a b i j (t + 1) = M.arith .add (dot M n k a b i j t)
    (M.arith .mul (a (i * k.toInt + t)) (b (t * n.toInt + j))) := by
  unfold dot
  rw [List.range_succ, List.foldl_append]
  rfl

theorem assign_float {v : Var} (hv : v.type = .float32) (x : F) :
    M.assign v.type (.float x) = .float x := by
  rw [hv]
  rfl

theorem cell_store_sum (x : F) :
    (μ.store M sum [0] (.float x)).cell sum [0] = some (.float x) := by
  rw [Memory.store_self, assign_float rfl]

theorem value_set_int {v : Var} (hv : v.type.isInt = true) (x : Int) :
    (ρ.set M v (.int x)).value v = .int x :=
  (Env.set_self M ρ v _).trans (M.assign_int hv x)

/-! ### One sum -/

/-- **One round** adds one product: every element it reads is within its matrix. -/
theorem eval_next {x : F} {t : Int} (h : Holds m n k a b μ) (hi : 0 ≤ i ∧ i < m.toInt)
    (hj : 0 ≤ j ∧ j < n.toInt) (ht : 0 ≤ t ∧ t < k.toInt) (hrow : ρ.value row = .int i)
    (hcolumn : ρ.value column = .int j) (hdepth : ρ.value depth = .int t)
    (hsum : μ.cell sum [0] = some (.float x)) :
    (next (index [m, k] [row, depth]) (index [k, n] [depth, column])).eval M (watched m n k)
        ρ μ log =
      some (.float (M.arith .add x (M.arith .mul (a (i * k.toInt + t)) (b (t * n.toInt + j)))),
        log) := by
  have hi' := Expr.denotes_var (M := M) hrow
  have hj' := Expr.denotes_var (M := M) hcolumn
  have ht' := Expr.denotes_var (M := M) hdepth
  have hleft := Layout.denotes_fold_offset (a := .var row) (b := .var depth) hi' ht' m k
  have hright := Layout.denotes_fold_offset (a := .var depth) (b := .var column) ht' hj' k n
  obtain ⟨hl0, hl⟩ := offset_mem hi ht
  obtain ⟨hr0, hr⟩ := offset_mem ht hj
  have hx : (Expr.load sum [.int 0]).eval M (watched m n k) ρ μ log = some (.float x, log) :=
    (Expr.denotes_int 0).eval_load (watched_sum _) hsum
  have hy : (Expr.load left (index [m, k] [row, depth])).eval M (watched m n k) ρ μ log =
      some (.float (a (i * k.toInt + t)), log) :=
    hleft.eval_load (watched_left hl0 hl) (h.left _ hl0 hl)
  have hz : (Expr.load right (index [k, n] [depth, column])).eval M (watched m n k) ρ μ log =
      some (.float (b (t * n.toInt + j)), log) :=
    hright.eval_load (watched_right hr0 hr) (h.right _ hr0 hr)
  exact Expr.eval_binary_iff.2 ⟨_, _, _, hx, Expr.eval_binary_iff.2 ⟨_, _, _, hy, hz, rfl⟩, rfl⟩

/-- **The loop over the products** of one element takes zero to their sum. -/
theorem exec_sum (h : Holds m n k a b μ) (hi : 0 ≤ i ∧ i < m.toInt) (hj : 0 ≤ j ∧ j < n.toInt)
    (hrow : ρ.value row = .int i) (hcolumn : ρ.value column = .int j) :
    (products k (index [m, k] [row, depth]) (index [k, n] [depth, column])).exec M (watched m n k) ρ
        ⟨μ.store M sum [0] (.float (M.literal .zero)), log⟩ =
      some ⟨μ.store M sum [0] (.float (dot M n k a b i j k.toInt.toNat)), log⟩ := by
  -- Before round `t`, the first `t` products are in the sum.
  refine Block.exec_upTo (g := fun t => ⟨μ.store M sum [0] (.float (dot M n k a b i j t)), log⟩) rfl
    fun t ht => ?_
  have ht : 0 ≤ (t : Int) ∧ (t : Int) < k.toInt := by omega
  have hrow' := (Env.set_of_ne M ρ (by decide : row ≠ depth) (.int t)).trans hrow
  have hcolumn' := (Env.set_of_ne M ρ (by decide : column ≠ depth) (.int t)).trans hcolumn
  refine ((Expr.denotes_int 0).exec_store (eval_next
    (h.store (by decide) (by decide) [0] _) hi hj ht hrow' hcolumn'
    (value_set_int rfl t) (cell_store_sum _)) (watched_sum _)).trans ?_
  rw [Int64.toInt_zero, Memory.store_store, dot_succ]

/-! ### One element -/

/-- **The statements for one element** store its sum: the array of the sum ends with its scope. -/
theorem exec_element (h : Holds m n k a b μ) (hi : 0 ≤ i ∧ i < m.toInt) (hj : 0 ≤ j ∧ j < n.toInt)
    (hrow : ρ.value row = .int i) (hcolumn : ρ.value column = .int j) :
    (flatElement m n k).exec M (watched m n k) ρ ⟨μ, log⟩ = some ⟨μ.store M target
      [i * n.toInt + j] (.float (dot M n k a b i j k.toInt.toNat)), log⟩ := by
  have hclear : Holds m n k a b (μ.clear sum) :=
    h.of_eq (Memory.restore_of_ne _ _ (by decide)) (Memory.restore_of_ne _ _ (by decide))
  have hzero : (Block.store sum [.int 0] (.float .zero)).exec M (watched m n k) ρ
      ⟨μ.clear sum, log⟩ = some ⟨(μ.clear sum).store M sum [0] (.float (M.literal .zero)), log⟩ :=
    (Expr.denotes_int 0).exec_store rfl (watched_sum _)
  have hload : (Expr.load sum [.int 0]).eval M (watched m n k) ρ
      ((μ.clear sum).store M sum [0] (.float (dot M n k a b i j k.toInt.toNat))) log =
        some (.float (dot M n k a b i j k.toInt.toNat), log) :=
    (Expr.denotes_int 0).eval_load (watched_sum _) (cell_store_sum _)
  obtain ⟨h0, hlt⟩ := offset_mem hi hj
  have htarget := Layout.denotes_fold_offset (a := .var row) (b := .var column)
    (Expr.denotes_var (M := M) hrow) (Expr.denotes_var (M := M) hcolumn) m n
  have hstore := htarget.exec_store (v := target) hload (watched_target (k := k) h0 hlt)
  have hbody := Block.exec_seq_iff.2 ⟨_, hzero, Block.exec_seq_iff.2
    ⟨_, exec_sum hclear hi hj hrow hcolumn, hstore⟩⟩
  refine Block.exec_alloc_iff.2 ⟨[1], log, _, Expr.numbers_of_counts
    (.cons (Expr.denotes_int 1).counts .nil), hbody, ?_⟩
  rw [Memory.restore_store M μ (by decide : target ≠ sum)]

/-! ### All elements -/

/-- The element with a given number, row by row. -/
def entry (M : Machine F) (n k : Word) (a b : Int → F) (q : Nat) : Value F :=
  .float (dot M n k a b (q / n.toInt.toNat : Nat) (q % n.toInt.toNat : Nat) k.toInt.toNat)

/-- What is written to the product leaves the factors. -/
theorem Holds.fill (h : Holds m n k a b μ) (f : Nat → Value F) (q : Nat) :
    Holds m n k a b (Memory.fill M μ target f q) := by
  induction q with
  | zero => exact h
  | succ q ih => exact ih.store (by decide) (by decide) _ _

/-- The number of an element, row by row, is its offset. -/
theorem cast_number {i j : Nat} (hj : (j : Int) < n.toInt) :
    ((i * n.toInt.toNat + j : Nat) : Int) = i * n.toInt + j := by
  have hN : ((n.toInt.toNat : Nat) : Int) = n.toInt := Int.toNat_of_nonneg (by omega)
  push_cast [hN]
  rfl

theorem entry_number {i j : Nat} (hj : (j : Int) < n.toInt) :
    entry M n k a b (i * n.toInt.toNat + j) = .float (dot M n k a b i j k.toInt.toNat) := by
  have hjN : j < n.toInt.toNat := Int.lt_toNat.2 hj
  have hdiv : (i * n.toInt.toNat + j) / n.toInt.toNat = i := by
    rw [Nat.mul_comm, Nat.mul_add_div (by omega), Nat.div_eq_of_lt hjN, Nat.add_zero]
  have hmod : (i * n.toInt.toNat + j) % n.toInt.toNat = j := by
    rw [Nat.mul_comm, Nat.mul_add_mod, Nat.mod_eq_of_lt hjN]
  rw [entry, hdiv, hmod]

/-- After the elements before row `i` and column `j` comes this one. -/
theorem exec_element_fill {i j : Nat} (h : Holds m n k a b μ) (hi : (i : Int) < m.toInt)
    (hj : (j : Int) < n.toInt) (hrow : ρ.value row = .int i) (hcolumn : ρ.value column = .int j) :
    (flatElement m n k).exec M (watched m n k) ρ
        ⟨Memory.fill M μ target (entry M n k a b) (i * n.toInt.toNat + j), log⟩ =
      some ⟨Memory.fill M μ target (entry M n k a b) (i * n.toInt.toNat + (j + 1)), log⟩ := by
  rw [exec_element (h.fill _ _) ⟨Int.natCast_nonneg i, hi⟩ ⟨Int.natCast_nonneg j, hj⟩ hrow hcolumn,
    ← Nat.add_assoc, Memory.fill, entry_number hj, cast_number hj]

/-- **The run of the body** writes the elements one after another. -/
theorem exec_body (h : Holds m n k a b μ) :
    (body m n k).exec M (watched m n k) ρ ⟨μ, log⟩ = some ⟨Memory.fill M μ target (entry M n k a b)
      (m.toInt.toNat * n.toInt.toNat), log⟩ := by
  have hcolumns : ∀ i < m.toInt.toNat,
      (Block.loop .spatial ⟨column, .upTo 0 n, "x"⟩ (flatElement m n k)).exec M (watched m n k)
          (ρ.set M row (.int i))
          ⟨Memory.fill M μ target (entry M n k a b) (i * n.toInt.toNat), log⟩ =
        some ⟨Memory.fill M μ target (entry M n k a b) ((i + 1) * n.toInt.toNat), log⟩ := by
    intro i hi
    rw [Nat.succ_mul]
    refine Block.exec_upTo (g := fun j =>
      ⟨Memory.fill M μ target (entry M n k a b) (i * n.toInt.toNat + j), log⟩) rfl fun j hj => ?_
    refine exec_element_fill h (by omega) (by omega) ?_ (value_set_int (v := column) rfl j)
    exact (Env.set_of_ne M _ (by decide) _).trans (value_set_int (v := row) rfl i)
  have hrows : (body m n k).exec M (watched m n k) ρ
      ⟨Memory.fill M μ target (entry M n k a b) (0 * n.toInt.toNat), log⟩ =
        some ⟨Memory.fill M μ target (entry M n k a b) (m.toInt.toNat * n.toInt.toNat), log⟩ :=
    Block.exec_upTo (g := fun i =>
      ⟨Memory.fill M μ target (entry M n k a b) (i * n.toInt.toNat), log⟩) rfl hcolumns
  rwa [Nat.zero_mul] at hrows

/-- A number below the number of elements is that of a row and a column. -/
theorem exists_row_column {p : Nat} (hp : p < m.toInt.toNat * n.toInt.toNat) :
    ∃ i j : Nat, (i : Int) < m.toInt ∧ (j : Int) < n.toInt ∧ (p : Int) = i * n.toInt + j := by
  have hpos : 0 < n.toInt.toNat := Nat.pos_of_mul_pos_left (Nat.zero_lt_of_lt hp)
  have hN : ((n.toInt.toNat : Nat) : Int) = n.toInt := Int.toNat_of_nonneg (by omega)
  have hrow : p / n.toInt.toNat < m.toInt.toNat := Nat.div_lt_of_lt_mul (Nat.mul_comm _ _ ▸ hp)
  have hcolumn : p % n.toInt.toNat < n.toInt.toNat := Nat.mod_lt p hpos
  refine ⟨p / n.toInt.toNat, p % n.toInt.toNat, Int.lt_toNat.1 hrow, Int.lt_toNat.1 hcolumn, ?_⟩
  rw [← hN]
  exact_mod_cast (Nat.div_add_mod' p n.toInt.toNat).symm

end

/-- **The kernel multiplies matrices**, of any sizes and on any machine. With the factors in memory
it runs without error, and within them and the product: each element of the product is the sum of
the products of its row and its column from left to right, and nothing else is written, so that the
factors stay. -/
theorem gemm_multiplies {F : Type} (M : Machine F) (ρ : Env F) {m n k : Word} {a b : Int → F}
    {s : State F} (h : Holds m n k a b s.memory) :
    ∃ kernel s', (gemm m n k).lower = .ok kernel ∧
      kernel.body.exec M (watched m n k) ρ s = some s' ∧ kernel.body.run M ρ s = some s' ∧
      s'.log = s.log ∧
      (∀ i j : Nat, (i : Int) < m.toInt → (j : Int) < n.toInt →
        s'.memory.cell target [i * n.toInt + j] =
          some (.float (dot M n k a b i j k.toInt.toNat))) ∧
      ∀ v c, s'.memory.cell v c = s.memory.cell v c ∨ v = target ∧
        ∃ i j : Nat, (i : Int) < m.toInt ∧ (j : Int) < n.toInt ∧ c = [i * n.toInt + j] := by
  have hrun : (body m n k).exec M (watched m n k) ρ s = some ⟨Memory.fill M s.memory target
    (entry M n k a b) (m.toInt.toNat * n.toInt.toNat), s.log⟩ := exec_body h
  refine ⟨_, _, lower_gemm m n k, hrun, Block.exec_unchecked hrun, rfl, ?_, ?_⟩
  · intro i j hi hj
    have hlt : i * n.toInt.toNat + j < m.toInt.toNat * n.toInt.toNat := by
      have hin := (offset_mem ⟨Int.natCast_nonneg i, hi⟩ ⟨Int.natCast_nonneg j, hj⟩).2
      zify
      rw [Int.toNat_of_nonneg (by omega), Int.toNat_of_nonneg (by omega)]
      exact hin
    rw [← cast_number hj, Memory.fill_of_lt hlt, entry_number hj]
    exact congrArg some (assign_float rfl _)
  · intro v c
    by_cases hc : v = target ∧ ∃ p < m.toInt.toNat * n.toInt.toNat, c = [(p : Int)]
    · obtain ⟨rfl, p, hp, rfl⟩ := hc
      obtain ⟨i, j, hi, hj, hij⟩ := exists_row_column hp
      exact .inr ⟨rfl, i, j, hi, hj, hij ▸ rfl⟩
    · exact .inl (Memory.fill_of_not hc)

/-- A matrix of two by two and one of two by one, in memory. -/
def factors : Memory Int :=
  Memory.fill .counting (Memory.fill .counting .empty left (fun p => .float (p + 1)) 4) right
    (fun p => .float (p + 1)) 2

/-- The elements of both are `1`, `2` and so on. -/
theorem holds_factors : Holds 2 1 2 (· + 1) (· + 1) factors := by
  constructor
  · intro p h0 hp
    lift p to Nat using h0
    have hp : p < 4 := by
      have hcount : Int64.toInt 2 * Int64.toInt 2 = 4 := by decide
      omega
    rw [factors, Memory.fill_of_not fun h => absurd h.1 (by decide), Memory.fill_of_lt hp]
    exact congrArg some (assign_float rfl _)
  · intro p h0 hp
    lift p to Nat using h0
    have hp : p < 2 := by
      have hcount : Int64.toInt 2 * Int64.toInt 1 = 2 := by decide
      omega
    rw [factors, Memory.fill_of_lt hp]
    exact congrArg some (assign_float rfl _)

theorem gemm_multiplies_two_by_two : Holds 2 1 2 (· + 1) (· + 1) factors ∧
    ∃ kernel s', (gemm 2 1 2).lower = .ok kernel ∧
      kernel.body.run .counting .zero ⟨factors, []⟩ = some s' ∧
      s'.memory.cell target [0] = some (.float 5) ∧
      s'.memory.cell target [1] = some (.float 11) := by
  obtain ⟨kernel, s', hlower, -, hrun, -, hcells, -⟩ :=
    gemm_multiplies .counting .zero (s := ⟨factors, []⟩) holds_factors
  have hfirst : dot .counting 1 2 (· + 1) (· + 1) 0 0 2 = 5 := by decide +kernel
  have hsecond : dot .counting 1 2 (· + 1) (· + 1) 1 0 2 = 11 := by decide +kernel
  refine ⟨holds_factors, kernel, s', hlower, hrun, ?_, ?_⟩
  · exact (hcells 0 0 (by decide) (by decide)).trans (congrArg (some ∘ Value.float) hfirst)
  · exact (hcells 1 0 (by decide) (by decide)).trans (congrArg (some ∘ Value.float) hsecond)

end Demo.Gemm

end LoopNest
