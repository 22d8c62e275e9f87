import Mathlib.Algebra.BigOperators.Group.List.Basic
import Mathlib.Data.List.Forall2
import Mathlib.Tactic.Linarith
import Mathlib.Tactic.Ring

/-!
# Row-major offsets of integer indices

The layout of a tensor of given extents, in plain integer arithmetic: an index is worth the product
of the extents after its own.

* `Layout.Inside`: indices within extents;
* `Layout.weights`, `Layout.rowMajor`: the worth of each index, and the offset;
* **`Layout.rowMajor_lt`**, **`Layout.rowMajor_inj`**: within the extents the offsets are below the
  number of elements, and each is that of one index list only.
-/

namespace LoopNest.Layout

/-- As many indices as extents, each from zero up to its extent. -/
def Inside (dims c : List Int) : Prop := List.Forall₂ (fun d i => 0 ≤ i ∧ i < d) dims c

instance (dims c : List Int) : Decidable (Inside dims c) :=
  inferInstanceAs (Decidable (List.Forall₂ _ dims c))

/-- The worth of each index: the number of elements that the later dimensions span. -/
def weights : List Int → List Int
  | [] => []
  | _ :: ds => ds.prod :: weights ds

/-- The offset of an element. -/
def rowMajor : List Int → List Int → Int
  | _ :: ds, i :: is => i * ds.prod + rowMajor ds is
  | _, _ => 0

theorem Inside.length_eq {dims c : List Int} (h : Inside dims c) : dims.length = c.length :=
  List.Forall₂.length_eq h

theorem Inside.nonneg {dims c : List Int} (h : Inside dims c) : ∀ k ∈ c, 0 ≤ k := by
  induction h with
  | nil => exact List.forall_mem_nil _
  | cons hi _ ih => exact List.forall_mem_cons.2 ⟨hi.1, ih⟩

theorem Inside.prod_pos {dims c : List Int} (h : Inside dims c) : 0 < dims.prod := by
  induction h with
  | nil => simp
  | @cons d i ds is hi _ ih =>
    rw [List.prod_cons]
    exact mul_pos (by omega) ih

theorem rowMajor_nonneg {dims c : List Int} (h : Inside dims c) : 0 ≤ rowMajor dims c := by
  induction h with
  | nil => exact le_rfl
  | @cons d i ds is hi his ih =>
    have hp := Inside.prod_pos his
    exact add_nonneg (mul_nonneg hi.1 hp.le) ih

/-- **An offset is below the number of elements.** -/
theorem rowMajor_lt {dims c : List Int} (h : Inside dims c) : rowMajor dims c < dims.prod := by
  induction h with
  | nil => simp [rowMajor]
  | @cons d i ds is hi his ih =>
    have hp := Inside.prod_pos his
    have hle : (i + 1) * ds.prod ≤ d * ds.prod := mul_le_mul_of_nonneg_right (by omega) hp.le
    rw [rowMajor, List.prod_cons]
    linarith

theorem eq_of_mul_add_eq {p i j r s : Int} (hr : 0 ≤ r) (hrp : r < p) (hs : 0 ≤ s) (hsp : s < p)
    (h : i * p + r = j * p + s) : i = j ∧ r = s := by
  have hij : i = j := by
    have hi : (i * p + r) / p = i := by
      rw [add_comm, Int.add_mul_ediv_right _ _ (by omega), Int.ediv_eq_zero_of_lt hr hrp, zero_add]
    have hj : (j * p + s) / p = j := by
      rw [add_comm, Int.add_mul_ediv_right _ _ (by omega), Int.ediv_eq_zero_of_lt hs hsp, zero_add]
    rw [← hi, ← hj, h]
  subst hij
  exact ⟨rfl, by omega⟩

/-- **Different indices have different offsets.** -/
theorem rowMajor_inj {dims c e : List Int} (hc : Inside dims c) (he : Inside dims e)
    (h : rowMajor dims c = rowMajor dims e) : c = e := by
  induction hc generalizing e with
  | nil =>
    cases he
    rfl
  | @cons d i ds is hi his ih =>
    cases he with
    | @cons _ j _ js hj hjs =>
      obtain ⟨hij, hr⟩ := eq_of_mul_add_eq (rowMajor_nonneg his) (rowMajor_lt his)
        (rowMajor_nonneg hjs) (rowMajor_lt hjs) h
      rw [hij, ih hjs hr]

end LoopNest.Layout
