import LoopNest.Layout
import LoopNest.Proofs.Folding

/-!
# What layout expressions stand for

The strides, the offset and the number of elements that a symbolic shape gives, against the extents
that it stands for.

* **`Layout.counts_strides`**: the strides stand for the weights of the extents;
* **`Layout.number_offset`**: the offset stands for the row-major offset, with the calls of the
  indices in their order;
* **`Layout.number_count`**: the number of elements.
-/

namespace LoopNest

section

variable {F : Type} {M : Machine F} [M.Typed] {w : Bounds} {ρ : Env F} {μ : Memory F}
  {log log' l : Log F}

/-! ## Sums and products -/

namespace Expr

theorem class_of_number {e : Expr} {n : Int} (he : e.isUnmixed = true)
    (h : e.number M w ρ μ log = some (n, log')) : e.isText = false ∧ e.type.isFloat = false := by
  obtain ⟨x, hx, hn⟩ := number_iff.1 h
  have ht : e.isText = false := by
    cases e with
    | str s =>
      obtain ⟨rfl, -⟩ := Prod.mk.inj (Option.some.inj hx)
      exact absurd hn (by simp [Value.whole?])
    | _ => rfl
  refine ⟨ht, Bool.eq_false_iff.2 fun hf => ?_⟩
  obtain ⟨y, rfl⟩ := (suits_eval he ht hx).float hf
  exact absurd hn (by simp [Value.whole?])

variable {op : Operator} {f : Int → Int → Int}

theorem number_binary (hop : ∀ m n, op.onInts m n = some (.int (f m n) : Value F)) {a b : Expr}
    {m n : Int} (hua : a.isUnmixed = true) (hub : b.isUnmixed = true)
    (ha : a.number M w ρ μ log = some (m, l)) (hb : b.number M w ρ μ l = some (n, log')) :
    (binary op a b).isUnmixed = true ∧
      (binary op a b).number M w ρ μ log = some (f m n, log') := by
  obtain ⟨hta, hfa⟩ := class_of_number hua ha
  obtain ⟨htb, hfb⟩ := class_of_number hub hb
  refine ⟨isUnmixed_binary_iff.2 ⟨hua, hub, hta, htb, hfa.trans hfb.symm⟩, ?_⟩
  obtain ⟨x, hx, hm⟩ := number_iff.1 ha
  obtain ⟨y, hy, hn⟩ := number_iff.1 hb
  refine number_iff.2 ⟨.int (f m n), eval_binary_iff.2 ⟨x, l, y, hx, hy, ?_⟩, rfl⟩
  rw [M.apply_of_whole hm hn, hop]

/-- Operands under one operator, taken from left to right. -/
theorem number_foldl (hop : ∀ m n, op.onInts m n = some (.int (f m n) : Value F)) {es : List Expr}
    (hus : ∀ e ∈ es, e.isUnmixed = true) {ns : List Int} {a : Expr} {m : Int}
    (hua : a.isUnmixed = true) (ha : a.number M w ρ μ log = some (m, l))
    (hes : numbers M w ρ μ es l = some (ns, log')) :
    (es.foldl (binary op) a).isUnmixed = true ∧
      (es.foldl (binary op) a).number M w ρ μ log = some (ns.foldl f m, log') := by
  induction es generalizing a m l ns with
  | nil =>
    obtain ⟨rfl, rfl⟩ := numbers_nil_iff.1 hes
    exact ⟨hua, ha⟩
  | cons e es ih =>
    obtain ⟨n, l', ns, he, hrest, rfl⟩ := numbers_cons_iff.1 hes
    obtain ⟨hue, hus⟩ := List.forall_mem_cons.1 hus
    obtain ⟨hub, hb⟩ := number_binary hop hua hue ha he
    rw [List.foldl_cons, List.foldl_cons]
    exact ih hus hub hb hrest

theorem number_fold {e : Expr} {n : Int} (he : e.isUnmixed = true)
    (h : e.number M w ρ μ log = some (n, log')) :
    e.fold.isUnmixed = true ∧ e.fold.number M w ρ μ log = some (n, log') :=
  ⟨(isUnmixed_fold he).1, (eval_fold he).number _ _ h⟩

theorem onInts_add (m n : Int) : Operator.add.onInts m n = some (.int (m + n) : Value F) := rfl

theorem onInts_mul (m n : Int) : Operator.mul.onInts m n = some (.int (m * n) : Value F) := rfl

end Expr

/-- Literals are to their values whatever each literal is to its own. -/
theorem Expr.forall₂_literals {D : Expr → Int → Prop} (h : ∀ w : Word, D (.int w) w.toInt)
    (ws : List Word) : List.Forall₂ D (ws.map Expr.int) (ws.map Int64.toInt) := by
  rw [List.forall₂_map_left_iff, List.forall₂_map_right_iff, List.forall₂_same]
  exact fun w _ => h w

/-! ## Layouts -/

namespace Layout

/-- Whatever extents are to integers, the strides are to the weights, if it holds of one and of
folded products. -/
theorem forall₂_strides {D : Expr → Int → Prop} (hone : D (.int 1) 1)
    (hmul : ∀ {a b : Expr} {m n : Int}, D a m → D b n → D (a * b).fold (m * n))
    {shape : List Expr} {dims : List Int} (h : List.Forall₂ D shape dims) :
    List.Forall₂ D (strides shape) (weights dims) := by
  induction h with
  | nil => exact .nil
  | @cons d n ds ns _ hds ih =>
    cases hds with
    | nil => exact .cons hone .nil
    | @cons e m es ms he _ =>
      rw [strides]
      rw [weights] at ih ⊢
      cases hstrides : strides (e :: es) with
      | nil =>
        rw [hstrides] at ih
        cases ih
      | cons s ss =>
        rw [hstrides] at ih
        obtain _ | ⟨hs, hss⟩ := ih
        -- one more stride: the next stride times the next extent
        have hprod : D (s * e).fold (ms.prod * m) := hmul hs he
        rw [List.prod_cons, mul_comm m]
        exact .cons hprod (.cons hs hss)

/-- **The strides of a shape stand for the weights of its extents.** -/
theorem counts_strides {shape : List Expr} {dims : List Int}
    (h : List.Forall₂ (Expr.Counts M ρ) shape dims) (hu : ∀ e ∈ shape, e.isUnmixed = true) :
    (∀ e ∈ strides shape, e.isUnmixed = true) ∧
      List.Forall₂ (Expr.Counts M ρ) (strides shape) (weights dims) := by
  have hdims := (List.forall₂_and_left shape dims).2 ⟨hu, h⟩
  rw [← List.forall₂_and_left]
  refine forall₂_strides ⟨rfl, Expr.Denotes.counts fun _ _ _ => rfl⟩ ?_ hdims
  rintro a b m n ⟨hua, ha⟩ ⟨hub, hb⟩
  have hnumber : ∀ w μ log, (a * b).fold.isUnmixed = true ∧
      (a * b).fold.number M w ρ μ log = some (m * n, log) := fun w μ log => by
    obtain ⟨hprod, hnum⟩ := Expr.number_binary Expr.onInts_mul hua hub (ha w μ log) (hb w μ log)
    exact Expr.number_fold hprod hnum
  exact ⟨(hnumber .unchecked .empty []).1, fun w μ log => (hnumber w μ log).2⟩

theorem rowMajor_eq_sum {dims c : List Int} (h : dims.length = c.length) :
    rowMajor dims c = (List.zipWith (· * ·) c (weights dims)).sum := by
  induction dims generalizing c with
  | nil =>
    rw [List.eq_nil_of_length_eq_zero h.symm]
    rfl
  | cons d ds ih =>
    cases c with
    | nil => exact nomatch h
    | cons i is =>
      rw [rowMajor, ih (Nat.succ.inj h), weights, List.zipWith_cons_cons, List.sum_cons]

/-- Each index with its stride, in order. -/
theorem numbers_terms {is ss : List Expr} {c ks : List Int}
    (hs : List.Forall₂ (Expr.Counts M ρ) ss ks) (hus : ∀ e ∈ ss, e.isUnmixed = true)
    (hlen : is.length = ss.length) (hui : ∀ e ∈ is, e.isUnmixed = true)
    (hc : Expr.numbers M w ρ μ is log = some (c, log')) :
    (∀ e ∈ List.zipWith (· * ·) is ss, e.isUnmixed = true) ∧
      Expr.numbers M w ρ μ (List.zipWith (· * ·) is ss) log =
        some (List.zipWith (· * ·) c ks, log') := by
  induction hs generalizing is c log with
  | nil =>
    obtain rfl := List.eq_nil_of_length_eq_zero hlen
    obtain ⟨rfl, rfl⟩ := Expr.numbers_nil_iff.1 hc
    exact ⟨by simp, rfl⟩
  | @cons s k ss ks hk _ ih =>
    cases is with
    | nil => exact nomatch hlen
    | cons i is =>
      obtain ⟨n, l, d, hi, hd, rfl⟩ := Expr.numbers_cons_iff.1 hc
      obtain ⟨hui, huis⟩ := List.forall_mem_cons.1 hui
      obtain ⟨hs, hus⟩ := List.forall_mem_cons.1 hus
      obtain ⟨hut, ht⟩ := Expr.number_binary Expr.onInts_mul hui hs hi (hk w μ l)
      obtain ⟨huts, hts⟩ := ih hus (Nat.succ.inj hlen) huis hd
      exact ⟨List.forall_mem_cons.2 ⟨hut, huts⟩,
        Expr.numbers_cons_iff.2 ⟨n * k, l, _, ht, hts, rfl⟩⟩

variable {shape : List Expr} {dims : List Int}

/-- **The offset of indices stands for their row-major offset.** -/
theorem number_offset (h : List.Forall₂ (Expr.Counts M ρ) shape dims)
    (hu : ∀ e ∈ shape, e.isUnmixed = true) {is : List Expr} {c : List Int}
    (hlen : is.length = shape.length) (hui : ∀ e ∈ is, e.isUnmixed = true)
    (hc : Expr.numbers M w ρ μ is log = some (c, log')) :
    (offset is shape).isUnmixed = true ∧
      (offset is shape).number M w ρ μ log = some (rowMajor dims c, log') := by
  have hdims : dims.length = c.length := by
    rw [Expr.length_numbers hc, hlen, h.length_eq]
  obtain ⟨hus, hs⟩ := counts_strides h hu
  obtain ⟨hut, ht⟩ := numbers_terms hs hus (hlen.trans (length_strides shape).symm) hui hc
  rw [rowMajor_eq_sum hdims, offset, terms]
  cases hterms : List.zipWith (· * ·) is (strides shape) with
  | nil =>
    rw [hterms] at ht
    obtain ⟨hnil, rfl⟩ := Expr.numbers_nil_iff.1 ht
    rw [hnil]
    exact ⟨rfl, rfl⟩
  | cons t ts =>
    rw [hterms] at hut ht
    obtain ⟨n, l, ns, hn, hns, hsum⟩ := Expr.numbers_cons_iff.1 ht
    obtain ⟨hut, huts⟩ := List.forall_mem_cons.1 hut
    obtain ⟨hufold, hfold⟩ := Expr.number_foldl Expr.onInts_add huts hut hn hns
    rw [hsum, List.sum_eq_foldl, List.foldl_cons, zero_add]
    exact Expr.number_fold hufold hfold

/-- **The number of elements is the product of the extents.** -/
theorem number_count (h : List.Forall₂ (Expr.Counts M ρ) shape dims)
    (hu : ∀ e ∈ shape, e.isUnmixed = true) :
    (count shape).number M w ρ μ log = some (dims.prod, log) := by
  induction h with
  | nil => rfl
  | @cons d n ds ns hd hds _ =>
    have hnums : Expr.numbers M w ρ μ ds log = some (ns, log) := Expr.numbers_of_counts hds
    obtain ⟨hud, huds⟩ := List.forall_mem_cons.1 hu
    obtain ⟨hufold, hfold⟩ := Expr.number_foldl Expr.onInts_mul huds hud (hd w μ log) hnums
    rw [List.prod_eq_foldl, List.foldl_cons, one_mul]
    exact (Expr.number_fold hufold hfold).2

end Layout

end

end LoopNest
