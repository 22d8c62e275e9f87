import LoopNest.Proofs.ConstantViews
import LoopNest.Proofs.Offsets

/-!
# Layouts of literal shapes

Where extents and indices fold to literals, so do the strides, the offset and the number of
elements, as long as the number of elements is a word: no product or sum on the way is greater.

* `Expr.Folds`: an expression folds to a literal of a given value;
* **`Layout.folds_strides`**: strides;
* **`Layout.offset_eq_literal`**, **`Layout.count_eq_literal`**: the offset of an element and the
  number of elements are literals.
-/

namespace LoopNest

/-! ## Folding to a literal -/

theorem Operator.fold?_add (a b : Word) :
    Operator.add.fold? a b = Word.ofInt? (a.toInt + b.toInt) := rfl

theorem Operator.fold?_mul (a b : Word) :
    Operator.mul.fold? a b = Word.ofInt? (a.toInt * b.toInt) := rfl

/-- An expression folds to a literal of value `n`. -/
def Expr.Folds (e : Expr) (n : Int) : Prop := ∃ w : Word, e.fold = .int w ∧ w.toInt = n

namespace Expr.Folds

theorem literal (w : Word) : (Expr.int w).Folds w.toInt := ⟨w, rfl, rfl⟩

theorem literals (ws : List Word) :
    List.Forall₂ Folds (ws.map Expr.int) (ws.map Int64.toInt) := forall₂_literals literal ws

theorem fold_eq {e : Expr} {n : Int} (h : e.Folds n) : e.fold = .int (Int64.ofInt n) := by
  obtain ⟨w, hw, rfl⟩ := h
  rw [hw, Int64.ofInt_toInt]

theorem fold {e : Expr} {n : Int} (h : e.Folds n) : e.fold.Folds n := by
  obtain ⟨w, hw, rfl⟩ := h
  rw [hw]
  exact literal w

variable {op : Operator} {f : Int → Int → Int}
  (hop : ∀ a b : Word, op.fold? a b = Word.ofInt? (f a.toInt b.toInt)) {N : Word}
include hop

theorem binary {a b : Expr} {m n : Int} (ha : a.Folds m) (hb : b.Folds n) (h0 : 0 ≤ f m n)
    (hN : f m n ≤ N.toInt) : (Expr.binary op a b).Folds (f m n) := by
  obtain ⟨u, hu, rfl⟩ := ha
  obtain ⟨v, hv, rfl⟩ := hb
  obtain ⟨w, hw, hwf⟩ := Word.exists_ofInt? h0 hN
  refine ⟨w, ?_, hwf⟩
  rw [fold_binary, hu, hv]
  simp only [foldOperation, literal?, hop, hw]

omit hop in
theorem le_foldl {p : Int → Prop} (hp : ∀ m n, p m → p n → p (f m n) ∧ m ≤ f m n) {ns : List Int}
    (hns : ∀ n ∈ ns, p n) {m : Int} (hm : p m) : m ≤ ns.foldl f m := by
  induction ns generalizing m with
  | nil => exact le_rfl
  | cons n ns ih =>
    obtain ⟨hn, hns⟩ := List.forall_mem_cons.1 hns
    obtain ⟨hmn, hle⟩ := hp m n hm hn
    exact hle.trans (ih hns hmn)

/-- Operands under an operator that does not fall on them, taken from left to right. The result
bounds all that is computed on the way. -/
theorem foldl {p : Int → Prop} (hp : ∀ m n, p m → p n → p (f m n) ∧ m ≤ f m n)
    (h0 : ∀ n, p n → 0 ≤ n) {es : List Expr} {ns : List Int} (hes : List.Forall₂ Folds es ns)
    (hns : ∀ n ∈ ns, p n) {a : Expr} {m : Int} (ha : a.Folds m) (hm : p m)
    (hN : ns.foldl f m ≤ N.toInt) : (es.foldl (Expr.binary op) a).Folds (ns.foldl f m) := by
  induction hes generalizing a m with
  | nil => exact ha
  | @cons e n es ns he _ ih =>
    obtain ⟨hn, hns⟩ := List.forall_mem_cons.1 hns
    obtain ⟨hmn, -⟩ := hp m n hm hn
    have hle : f m n ≤ ns.foldl f (f m n) := le_foldl hp hns hmn
    exact ih hns (binary hop ha he (h0 _ hmn) (hle.trans hN)) hmn hN

end Expr.Folds

/-! ## Layouts -/

open LoopNest.Expr (Folds)

namespace Layout

variable {shape : List Expr} {dims : List Int} {N : Word}

theorem prod_pos_of_forall (hpos : ∀ d ∈ dims, 0 < d) : 0 < dims.prod := by
  induction dims with
  | nil => simp
  | cons d ds ih =>
    obtain ⟨hd, hds⟩ := List.forall_mem_cons.1 hpos
    rw [List.prod_cons]
    exact mul_pos hd (ih hds)

theorem Inside.pos {c : List Int} (h : Inside dims c) : ∀ d ∈ dims, 0 < d := by
  induction h with
  | nil => exact List.forall_mem_nil _
  | cons hi _ ih => exact List.forall_mem_cons.2 ⟨by omega, ih⟩

theorem prod_tail_le {d : Int} (hpos : ∀ e ∈ d :: dims, 0 < e) : dims.prod ≤ (d :: dims).prod := by
  obtain ⟨hd, hds⟩ := List.forall_mem_cons.1 hpos
  rw [List.prod_cons]
  exact le_mul_of_one_le_left (prod_pos_of_forall hds).le hd

/-- **The strides fold to the weights of the extents.** -/
theorem folds_strides (h : List.Forall₂ Folds shape dims) (hpos : ∀ d ∈ dims, 0 < d)
    (hN : dims.prod ≤ N.toInt) : List.Forall₂ Folds (strides shape) (weights dims) := by
  induction h with
  | nil => exact .nil
  | @cons d n ds ns hd hds ih =>
    cases hds with
    | nil => exact .cons (.literal 1) .nil
    | @cons e m es ms he hes =>
      have hle : (m :: ms).prod ≤ N.toInt := (prod_tail_le hpos).trans hN
      have hposs : ∀ d ∈ m :: ms, 0 < d := (List.forall_mem_cons.1 hpos).2
      have hss := ih hposs hle
      rw [strides]
      rw [weights] at hss ⊢
      cases hstrides : strides (e :: es) with
      | nil =>
        rw [hstrides] at hss
        cases hss
      | cons s ss =>
        rw [hstrides] at hss
        obtain _ | ⟨hs, hss⟩ := hss
        -- one more stride: the next stride times the next extent
        have hprod : (s * e).Folds (ms.prod * m) := by
          have hbound : 0 < (m :: ms).prod := prod_pos_of_forall hposs
          rw [List.prod_cons, mul_comm] at hbound hle
          exact .binary Operator.fold?_mul hs he hbound.le hle
        refine .cons ?_ (.cons hs hss)
        rw [List.prod_cons, mul_comm]
        exact hprod.fold

/-- Each index with its stride folds to their product. -/
theorem folds_terms {is ss : List Expr} {c : List Int} (hin : Inside dims c)
    (hc : List.Forall₂ Folds is c) (hs : List.Forall₂ Folds ss (weights dims))
    (hN : dims.prod ≤ N.toInt) :
    List.Forall₂ Folds (List.zipWith (· * ·) is ss) (List.zipWith (· * ·) c (weights dims)) ∧
      ∀ n ∈ List.zipWith (· * ·) c (weights dims), 0 ≤ n := by
  induction hin generalizing is ss with
  | nil =>
    cases hc
    exact ⟨.nil, List.forall_mem_nil _⟩
  | @cons d k ds ks hk hks ih =>
    obtain _ | ⟨hi, his⟩ := hc
    obtain _ | ⟨hs, hss⟩ := hs
    have hp : 0 < ds.prod := Inside.prod_pos hks
    have h0 : 0 ≤ k * ds.prod := mul_nonneg hk.1 hp.le
    have hlt : k * ds.prod ≤ d * ds.prod := mul_le_mul_of_nonneg_right hk.2.le hp.le
    have htail : ds.prod ≤ d * ds.prod := le_mul_of_one_le_left hp.le (by omega)
    rw [List.prod_cons] at hN
    obtain ⟨hterms, hnonneg⟩ := ih his hss (htail.trans hN)
    have hterm := Folds.binary Operator.fold?_mul hi hs h0 (hlt.trans hN)
    exact ⟨.cons hterm hterms, List.forall_mem_cons.2 ⟨h0, hnonneg⟩⟩

/-- **The offset of an element is a literal.** -/
theorem offset_eq_literal (h : List.Forall₂ Folds shape dims) {is : List Expr} {c : List Int}
    (hc : List.Forall₂ Folds is c) (hin : Inside dims c) (hN : dims.prod ≤ N.toInt) :
    offset is shape = .int (Int64.ofInt (rowMajor dims c)) := by
  obtain ⟨hterms, hnonneg⟩ := folds_terms hin hc (folds_strides h hin.pos hN) hN
  have hsum := rowMajor_eq_sum hin.length_eq
  have hlt : rowMajor dims c ≤ N.toInt := (rowMajor_lt hin).le.trans hN
  rw [hsum] at hlt ⊢
  rw [offset, terms]
  generalize List.zipWith (· * ·) is (strides shape) = ts at hterms
  generalize List.zipWith (· * ·) c (weights dims) = ns at hterms hnonneg hlt
  cases hterms with
  | nil => rfl
  | @cons t n ts ns ht hts =>
    obtain ⟨hn, hns⟩ := List.forall_mem_cons.1 hnonneg
    rw [List.sum_eq_foldl, List.foldl_cons, zero_add] at hlt ⊢
    refine Folds.fold_eq (Folds.foldl (p := (0 ≤ ·)) Operator.fold?_add ?_
      (fun _ h => h) hts hns ht hn hlt)
    intro m n hm hn
    omega

/-- **The number of elements is a literal.** -/
theorem count_eq_literal (h : List.Forall₂ Folds shape dims) (hpos : ∀ d ∈ dims, 0 < d)
    (hN : dims.prod ≤ N.toInt) : count shape = .int (Int64.ofInt dims.prod) := by
  cases h with
  | nil => rfl
  | @cons d n ds ns hd hds =>
    obtain ⟨hn, hns⟩ := List.forall_mem_cons.1 hpos
    rw [List.prod_eq_foldl, List.foldl_cons, one_mul] at hN ⊢
    refine Folds.fold_eq (Folds.foldl (p := (0 < ·)) Operator.fold?_mul ?_
      (fun _ h => h.le) hds hns hd hn hN)
    intro m n hm hn
    exact ⟨mul_pos hm hn, le_mul_of_one_le_right hm.le hn⟩

end Layout

end LoopNest
