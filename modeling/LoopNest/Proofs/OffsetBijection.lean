import LoopNest.Proofs.Composition
import LoopNest.Proofs.Enumeration
import Mathlib.Algebra.BigOperators.Group.Finset.Basic

/-!
# Offsets number the elements

Under an interpretation the offset of indices is a sum, each index times the product of the later
extents. Within the extents this numbers the elements from zero, without a gap and without a
repetition.

* **`Layout.rowMajor_eq_sum_range`**: the row-major offset as a sum over the dimensions;
* **`Layout.exists_rowMajor_eq`**: every number below the number of elements is an offset;
* **`Layout.denotes_offset`**, **`Layout.denotes_count`**: what the offset and the number of
  elements stand for;
* **`offset_bijective`**: the offsets of a shape.
-/

namespace LoopNest

/-! ## Integers -/

namespace Layout

variable {dims c : List Int}

/-- **An index is worth the product of the later extents.** -/
theorem rowMajor_eq_sum_range (h : dims.length = c.length) :
    rowMajor dims c =
      ∑ j ∈ Finset.range dims.length, c.getD j 0 * (dims.drop (j + 1)).prod := by
  induction dims generalizing c with
  | nil => rfl
  | cons d ds ih =>
    cases c with
    | nil => exact nomatch h
    | cons i is =>
      rw [rowMajor, ih (Nat.succ.inj h), List.length_cons, Finset.sum_range_succ', add_comm]
      rfl

/-- **Every number below the number of elements is an offset.** -/
theorem exists_rowMajor_eq (hpos : ∀ d ∈ dims, 0 < d) {n : Int} (h0 : 0 ≤ n) (hn : n < dims.prod) :
    ∃ c, Inside dims c ∧ rowMajor dims c = n := by
  have hmem : n ∈ (cells dims).map (rowMajor dims) := by
    rw [map_rowMajor_cells hpos]
    exact List.mem_map.2 ⟨n.toNat, List.mem_range.2 (by omega), Int.toNat_of_nonneg h0⟩
  obtain ⟨c, hc, rfl⟩ := List.mem_map.1 hmem
  exact ⟨c, inside_of_mem_cells hc, rfl⟩

end Layout

/-! ## Expressions under an interpretation -/

section

variable {F : Type} {I : Interpretation F} {es fs is shape : List Expr} {ms ns c dims : List Int}

namespace Interpretation

theorem denotes_zipWith_mul (hes : List.Forall₂ I.Denotes es ms)
    (hfs : List.Forall₂ I.Denotes fs ns) :
    List.Forall₂ I.Denotes (List.zipWith (· * ·) es fs) (List.zipWith (· * ·) ms ns) := by
  induction hes generalizing fs ns with
  | nil => exact .nil
  | cons he _ ih =>
    cases hfs with
    | nil => exact .nil
    | cons hf hfs => exact .cons (he.mul hf) (ih hfs)

theorem denotes_foldl {op : Operator} {f : Int → Int → Int}
    (hop : ∀ m n, op.onInts m n = some (.int (f m n) : Value F)) {e : Expr} {m : Int}
    (he : I.Denotes e m) (hes : List.Forall₂ I.Denotes es ms) :
    I.Denotes (es.foldl (Expr.binary op) e) (ms.foldl f m) :=
  List.rel_foldl (fun _ _ ha _ _ hb => .binary (hop _ _) ha hb) he hes

variable (I) in
/-- Every natural number is the value of an expression. -/
theorem exists_denotes (n : Nat) : ∃ e, I.Denotes e n := by
  induction n with
  | zero => exact ⟨.int 0, I.denotes_literal 0⟩
  | succ n ih =>
    obtain ⟨e, he⟩ := ih
    exact ⟨e + .int 1, he.add (I.denotes_literal 1)⟩

variable (I) in
theorem exists_forall₂_denotes (h : ∀ n ∈ c, 0 ≤ n) : ∃ is, List.Forall₂ I.Denotes is c := by
  induction c with
  | nil => exact ⟨[], .nil⟩
  | cons n c ih =>
    obtain ⟨hn, hc⟩ := List.forall_mem_cons.1 h
    obtain ⟨is, his⟩ := ih hc
    obtain ⟨e, he⟩ := I.exists_denotes n.toNat
    rw [Int.toNat_of_nonneg hn] at he
    exact ⟨e :: is, .cons he his⟩

end Interpretation

namespace Layout

open Interpretation

/-- **The offset stands for the row-major offset.** -/
theorem denotes_offset (h : List.Forall₂ I.Denotes shape dims) (hc : List.Forall₂ I.Denotes is c)
    (hlen : dims.length = c.length) : I.Denotes (offset is shape) (rowMajor dims c) := by
  have hstrides : List.Forall₂ I.Denotes (strides shape) (weights dims) :=
    forall₂_strides (I.denotes_literal 1) (fun ha hb => (ha.mul hb).fold) h
  have hterms := denotes_zipWith_mul hc hstrides
  rw [rowMajor_eq_sum hlen, offset, terms]
  generalize List.zipWith (· * ·) is (strides shape) = ts at hterms
  generalize List.zipWith (· * ·) c (weights dims) = ns at hterms
  cases hterms with
  | nil => exact I.denotes_literal 0
  | cons ht hts =>
    rw [List.sum_eq_foldl, List.foldl_cons, zero_add]
    exact (denotes_foldl Expr.onInts_add ht hts).fold

/-- **The number of elements stands for the product of the extents.** -/
theorem denotes_count (h : List.Forall₂ I.Denotes shape dims) :
    I.Denotes (count shape) dims.prod := by
  cases h with
  | nil => exact I.denotes_literal 1
  | cons hd hds =>
    rw [List.prod_eq_foldl, List.foldl_cons, one_mul]
    exact (denotes_foldl Expr.onInts_mul hd hds).fold

end Layout

end

open Layout in
/-- **Offsets number the elements.** Under every interpretation that gives positive integers to the
extents of a shape, the number of elements is their product. Indices within the extents have an
offset, the sum of each index times the product of the later extents, which lies between zero and
the number of elements. Different ones have different offsets, and every number below the number of
elements is the offset of some. The offset of literals is a literal, if the number of elements is a
word. -/
theorem offset_bijective {F : Type} (I : Interpretation F) {shape : List Expr} {dims : List Int}
    (hshape : List.Forall₂ I.Denotes shape dims) (hpos : ∀ d ∈ dims, 0 < d) :
    I.Denotes (count shape) dims.prod ∧
      (∀ is c, List.Forall₂ I.Denotes is c → Inside dims c → ∃ n,
        n = ∑ j ∈ Finset.range dims.length, c.getD j 0 * (dims.drop (j + 1)).prod ∧
        I.Denotes (offset is shape) n ∧ 0 ≤ n ∧ n < dims.prod) ∧
      (∀ is js c e, List.Forall₂ I.Denotes is c → List.Forall₂ I.Denotes js e → Inside dims c →
        Inside dims e → c ≠ e → I.value (offset is shape) ≠ I.value (offset js shape)) ∧
      (∀ n, 0 ≤ n → n < dims.prod → ∃ is c, List.Forall₂ I.Denotes is c ∧ Inside dims c ∧
        I.Denotes (offset is shape) n) ∧
      ∀ ds cs : List Word, shape = ds.map .int → Inside dims (cs.map Int64.toInt) →
        Word.Fits dims.prod → ∃ w : Word, offset (cs.map .int) shape = .int w := by
  have hoffset {is c} (hc : List.Forall₂ I.Denotes is c) (hin : Inside dims c) :
      I.Denotes (offset is shape) (rowMajor dims c) :=
    denotes_offset hshape hc hin.length_eq
  refine ⟨denotes_count hshape, fun is c hc hin => ?_, fun is js c e hc he hin hin' hne heq => ?_,
    fun n h0 hn => ?_, fun ds cs hds hin hfits => ?_⟩
  · exact ⟨_, rowMajor_eq_sum_range hin.length_eq, hoffset hc hin, rowMajor_nonneg hin,
      rowMajor_lt hin⟩
  · have hvalue : I.Denotes (offset js shape) (rowMajor dims c) := heq.symm.trans (hoffset hc hin)
    exact hne (rowMajor_inj hin hin' (hvalue.unique (hoffset he hin')))
  · obtain ⟨c, hin, rfl⟩ := exists_rowMajor_eq hpos h0 hn
    obtain ⟨is, his⟩ := I.exists_forall₂_denotes hin.nonneg
    exact ⟨is, c, his, hin, hoffset his hin⟩
  · subst hds
    obtain rfl := Interpretation.eq_of_forall₂_denotes hshape
      (Expr.forall₂_literals I.denotes_literal ds)
    have hbound := (Word.toInt_ofInt_of_fits hfits).ge
    exact ⟨_, offset_eq_literal (Expr.Folds.literals ds) (Expr.Folds.literals cs) hin hbound⟩

/-- Two sheets, as many rows as `t[0]`, and one column more than `k`. -/
def tiltShape : List Expr :=
  [.int 2, .load ⟨1, "t", .int32⟩ [.int 0], .var ⟨2, "k", .int32⟩ + .int 1]

/-- Sheet `k`, in a row that is called for, and the last column. -/
def tiltIndices : List Expr :=
  [.var ⟨2, "k", .int32⟩, .call .int32 "row" [.var ⟨2, "k", .int32⟩, .int 0],
    .var ⟨2, "k", .int32⟩]

theorem offset_bijective_tilt :
    List.Forall₂ tiltMeaning.Denotes tiltShape [2, 3, 2] ∧
      tiltMeaning.Denotes (Layout.count tiltShape) 12 ∧
      tiltMeaning.Denotes (Layout.offset tiltIndices tiltShape) 11 ∧
      ∃ is c, List.Forall₂ tiltMeaning.Denotes is c ∧
        tiltMeaning.Denotes (Layout.offset is tiltShape) 5 := by
  have hshape : List.Forall₂ tiltMeaning.Denotes tiltShape [2, 3, 2] :=
    .cons rfl (.cons rfl (.cons rfl .nil))
  have hindices : List.Forall₂ tiltMeaning.Denotes tiltIndices [1, 2, 1] :=
    .cons rfl (.cons rfl (.cons rfl .nil))
  obtain ⟨hcount, hoffset, -, hreached, -⟩ := offset_bijective tiltMeaning hshape (by decide)
  obtain ⟨n, hn, hden, -⟩ := hoffset tiltIndices _ hindices (by decide)
  obtain rfl : n = 11 := hn
  obtain ⟨is, c, hc, -, hfive⟩ := hreached 5 (by decide) (by decide)
  exact ⟨hshape, hcount, hden, is, c, hc, hfive⟩

end LoopNest
