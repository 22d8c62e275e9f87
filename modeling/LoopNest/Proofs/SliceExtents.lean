import LoopNest.Proofs.Composition
import LoopNest.Proofs.ConstantViews
import Mathlib.Data.Rat.Floor
import Mathlib.Data.Set.Card

/-!
# Slice extents count the points

The extent of a slice is computed in one of three ways: in words, where all is literal; as a
difference, where the step is one; and by a floor division of the distance, made larger by the step
less one. A range of literals has a fourth. All four round the distance over the step up, which
is the number of points.

* `points`, **`ncard_points`**: the points from a first one below an end, and their number;
* `Span`, `View.spans`: the slices in a selection, with their missing parts filled in;
* **`Selector.spanExtent_denotes`**, **`Selector.spanExtent_literal`**: the extent under an
  interpretation, and of literals;
* **`slice_extents`**: the extents of a view that was selected.
-/

namespace LoopNest

/-! ## Rounding up -/

section

variable {m s q : Int}

theorem ceil_div_eq_iff (hs : 0 < s) :
    ⌈(m : Rat) / s⌉ = q ↔ (q - 1) * s < m ∧ m ≤ q * s := by
  have hs : (0 : Rat) < s := by exact_mod_cast hs
  rw [Int.ceil_eq_iff, lt_div_iff₀ hs, div_le_iff₀ hs]
  exact_mod_cast Iff.rfl

/-- One less, rounded down, and one more. -/
theorem ceil_div_eq (m : Int) (hs : 0 < s) : ⌈(m : Rat) / s⌉ = (m - 1) / s + 1 := by
  have hle := Int.ediv_mul_le (m - 1) hs.ne'
  have hlt := Int.lt_ediv_add_one_mul_self (m - 1) hs
  rw [ceil_div_eq_iff hs, add_sub_cancel_right]
  omega

/-- The step less one more, rounded down. -/
theorem fdiv_eq_ceil_div (m : Int) (hs : 0 < s) : (m + (s - 1)).fdiv s = ⌈(m : Rat) / s⌉ := by
  have hshift : m + (s - 1) = m - 1 + 1 * s := by omega
  rw [Int.fdiv_eq_ediv_of_nonneg _ hs.le, hshift, Int.add_mul_ediv_right _ _ hs.ne',
    ceil_div_eq m hs]

/-- Every `s`-th integer from `b` on, below `e`. -/
def points (b e s : Int) : Set Int := {x | ∃ k : Nat, x = b + k * s ∧ x < e}

/-- **The number of points** is the distance over the step, rounded up. -/
theorem ncard_points {b e : Int} (hs : 0 < s) (hbe : b < e) :
    ((points b e s).ncard : Int) = ⌈((e - b : Int) : Rat) / s⌉ := by
  have hinj : Function.Injective fun k : Nat => b + k * s := by
    intro j k h
    simpa [hs.ne'] using h
  obtain ⟨q, hq⟩ : ∃ q, ⌈((e - b : Int) : Rat) / s⌉ = q := ⟨_, rfl⟩
  obtain ⟨hlo, hhi⟩ := (ceil_div_eq_iff hs).1 hq
  have himage : points b e s = (fun k : Nat => b + k * s) '' Set.Iio q.toNat := by
    ext x
    simp only [points, Set.mem_ofPred_eq, Set.mem_image, Set.mem_Iio, Int.lt_toNat]
    constructor
    · rintro ⟨k, rfl, hx⟩
      refine ⟨k, ?_, rfl⟩
      by_contra hk
      have hmul : q * s ≤ k * s := mul_le_mul_of_nonneg_right (by omega) hs.le
      omega
    · rintro ⟨k, hk, rfl⟩
      have hmul : k * s ≤ (q - 1) * s := mul_le_mul_of_nonneg_right (by omega) hs.le
      exact ⟨k, rfl, by omega⟩
  have hpos : 0 < q := by
    by_contra hneg
    have hmul : q * s ≤ 0 := mul_nonpos_of_nonpos_of_nonneg (by omega) hs.le
    omega
  rw [hq, himage, Set.ncard_image_of_injective _ hinj, ← Finset.coe_range, Set.ncard_coe_finset,
    Finset.card_range, Int.toNat_of_nonneg hpos.le]

end

/-! ## The extent of one slice -/

namespace Selector

variable {dim : Nat} {start stop step n : Expr} {b e s : Int}

/-- **The extent of literals is a literal.** -/
theorem spanExtent_literal {b e s : Word} (hs : 0 < s.toInt)
    (hn : spanExtent dim (.int b) (.int e) (.int s) = .ok n) :
    b.toInt < e.toInt ∧ ∃ m : Word, n = .int m ∧
      m.toInt = ⌈((e.toInt - b.toInt : Int) : Rat) / s.toInt⌉ := by
  unfold spanExtent at hn
  simp only [Expr.literal?] at hn
  split at hn
  · cases hn
  · next width hwidth =>
    have hw : width.toInt = e.toInt - b.toInt := Word.ofInt?_eq_some_iff.1 hwidth
    split at hn
    · cases hn
    · next hpos =>
      rw [Int64.not_le, Word.zero_lt_iff] at hpos
      obtain ⟨_, _, m, -, -, -, hdiv, hm⟩ := Word.exists_steps hpos hs
      rw [hdiv] at hn
      refine ⟨by omega, m, (Except.ok.inj hn).symm, ?_⟩
      rw [hm, hw, ceil_div_eq _ hs]

variable {F : Type} {I : Interpretation F}

/-- **The extent stands for the distance over the step, rounded up.** -/
theorem spanExtent_denotes (hn : spanExtent dim start stop step = .ok n) (hb : I.Denotes start b)
    (he : I.Denotes stop e) (hs : I.Denotes step s) (hpos : 0 < s) :
    I.Denotes n ⌈((e - b : Int) : Rat) / s⌉ := by
  have hspan : I.Denotes (stop - start) (e - b) := he.sub hb
  have hcases := hn
  unfold spanExtent at hcases
  split at hcases
  · -- literals only
    next b' e' s' hb' he' hs' =>
    rw [Expr.literal?_eq_some_iff] at hb' he' hs'
    subst hb' he' hs'
    obtain rfl := hb.unique (I.denotes_literal b')
    obtain rfl := he.unique (I.denotes_literal e')
    obtain rfl := hs.unique (I.denotes_literal s')
    obtain ⟨-, m, rfl, hm⟩ := spanExtent_literal hpos hn
    rw [← hm]
    exact I.denotes_literal m
  · -- a step of one
    next hs' _ =>
    rw [Expr.literal?_eq_some_iff] at hs'
    subst hs'
    obtain rfl := hs.unique (I.denotes_literal 1)
    obtain rfl := Except.ok.inj hcases
    have hone : (1 : Word).toInt = 1 := rfl
    rw [hone, Int.cast_one, div_one, Int.ceil_intCast]
    exact hspan.fold
  · -- the distance and the step less one, divided
    obtain rfl := Except.ok.inj hcases
    have hsum : I.Denotes (stop - start + (step - .int 1)) (e - b + (s - 1)) :=
      hspan.add (hs.sub (I.denotes_literal 1))
    have hdiv : Operator.floorDiv.onInts (e - b + (s - 1)) s =
        some (.int ⌈((e - b : Int) : Rat) / s⌉ : Value F) := by
      rw [Operator.onInts, if_neg hpos.ne', fdiv_eq_ceil_div _ hpos]
    exact (Interpretation.Denotes.binary hdiv hsum hs).fold

end Selector

/-- The extent of a range of literals. Where distance and step add up to a word, nothing that is
computed on the way wraps. -/
theorem Range.exists_strided_extent {b e s : Word} (hs : 0 < s.toInt) (hbe : b.toInt < e.toInt)
    (hfits : Word.Fits (e.toInt - b.toInt + s.toInt)) :
    ∃ m : Word, (Range.strided b e s).extent = .int m ∧
      m.toInt = ⌈((e.toInt - b.toInt : Int) : Rat) / s.toInt⌉ := by
  have hif : 0 < s ∧ b < e := ⟨Word.zero_lt_iff.2 hs, Int64.lt_iff_toInt_lt.2 hbe⟩
  refine ⟨(e - b + s - 1) / s, by rw [strided, if_pos hif], ?_⟩
  have hsum : (e - b + s - 1).toInt = e.toInt - b.toInt + (s.toInt - 1) := by
    have hword : e - b + s - 1 = Int64.ofInt (e.toInt - b.toInt + s.toInt - 1) := by
      simp [Int64.ofInt_add, Int64.ofInt_sub]
    have hlow : Word.Fits 0 := by decide
    rw [hword, Word.toInt_ofInt_of_fits (hlow.of_between hfits (by omega) (by omega))]
    omega
  have hne : s ≠ -1 := by
    rintro rfl
    exact absurd hs (by decide)
  rw [Int64.toInt_div_of_ne_right _ _ hne, hsum, Int.tdiv_eq_ediv_of_nonneg (by omega),
    ← Int.fdiv_eq_ediv_of_nonneg _ hs.le, fdiv_eq_ceil_div _ hs]

/-! ## The extents of a view -/

/-- A slice of one dimension, all of its parts given. -/
structure Span where
  start : Expr
  stop : Expr
  step : Expr
deriving DecidableEq

/-- The slice that a selector makes of a dimension, its missing parts filled in. -/
def Selector.span? (extent : Expr) : Selector → Option Span
  | .at _ => none
  | span start stop step => some ⟨start.getD (.int 0), stop.getD extent, step.getD (.int 1)⟩

/-- The slices in a selection, from the first dimension to the last. -/
def View.spans (v : View) (ss : List Selector) : List Span :=
  (ss.zip v.shape).filterMap fun p => p.1.span? p.2

namespace Span

variable {F : Type} (I : Interpretation F)

/-- The parts of a slice stand for integers. -/
structure Denotes (p : Span) (b e s : Int) : Prop where
  start : I.Denotes p.start b
  stop : I.Denotes p.stop e
  step : I.Denotes p.step s

/-- A slice by variables, whatever the dimension, has an extent that stands for `k`. -/
def VariablesGive (b e s k : Int) : Prop :=
  ∀ (x y z : Var) (dim : Nat) (extent : Expr), Denotes I ⟨.var x, .var y, .var z⟩ b e s →
    ∃ n, (Selector.span (some (.var x)) (some (.var y)) (some (.var z))).cut dim extent =
        .ok (.strided (.var x) (.var z) n) ∧ I.Denotes n k

/-- What the extent of a slice is. -/
structure HasExtent (p : Span) (n : Expr) : Prop where
  /-- The distance over the step, rounded up. -/
  ceil : ∀ {b e s}, p.Denotes I b e s → 0 < s → I.Denotes n ⌈((e - b : Int) : Rat) / s⌉
  /-- The number of points. -/
  ncard : ∀ {b e s}, p.Denotes I b e s → 0 < s → b < e → I.Denotes n (points b e s).ncard
  /-- A literal for literals, which is what variables of the same values give, and the extent of
  the range of these points. -/
  literal : ∀ {b e s : Word}, p = ⟨.int b, .int e, .int s⟩ → ∃ m : Word, n = .int m ∧
    VariablesGive I b.toInt e.toInt s.toInt m.toInt ∧
    (Word.Fits (e.toInt - b.toInt + s.toInt) → (Range.strided b e s).extent = .int m)

variable {I} {dim : Nat} {extent : Expr}

theorem variablesGive {b e s : Int} (hs : 0 < s) :
    VariablesGive I b e s ⌈((e - b : Int) : Rat) / s⌉ := by
  intro x y z dim extent h
  obtain ⟨n, hn⟩ : ∃ n, Selector.spanExtent dim (.var x) (.var y) (.var z) = .ok n := ⟨_, rfl⟩
  refine ⟨n, ?_, Selector.spanExtent_denotes hn h.start h.stop h.step hs⟩
  exact Selector.cut_span_eq_ok_iff.2 ⟨n, rfl, rfl, hn, rfl⟩

/-- **An accepted slice** keeps its dimension, with the extent of the slice. -/
theorem hasExtent_of_cut {start stop step : Option Expr} {c : Cut}
    (hc : (Selector.span start stop step).cut dim extent = .ok c) : ∃ n, c.extent? = some n ∧
      HasExtent I ⟨start.getD (.int 0), stop.getD extent, step.getD (.int 1)⟩ n := by
  obtain ⟨n, hstep, -, hn, rfl⟩ := Selector.cut_span_eq_ok_iff.1 hc
  refine ⟨n, rfl, fun h hs => Selector.spanExtent_denotes hn h.start h.stop h.step hs,
    fun h hs hbe => ?_, fun {b e s} hp => ?_⟩
  · rw [ncard_points hs hbe]
    exact Selector.spanExtent_denotes hn h.start h.stop h.step hs
  · obtain ⟨hb, he, hs⟩ := Span.mk.inj hp
    rw [hb, he, hs] at hn
    rw [hs, Selector.checkStep_int_eq_ok_iff] at hstep
    obtain ⟨hbe, m, rfl, hm⟩ := Selector.spanExtent_literal hstep hn
    refine ⟨m, rfl, ?_, fun hfits => ?_⟩
    · rw [hm]
      exact variablesGive hstep
    · obtain ⟨k, hk, hkm⟩ := Range.exists_strided_extent hstep hbe hfits
      rw [hk, Int64.toInt_inj.1 (hkm.trans hm.symm)]

end Span

/-- **Slice extents count the points.** Select a view of any view by slices, or by slices and
positions. Under every interpretation, the new extents are those of the slices, in their order: each
stands for the distance over the step, rounded up, if the step is positive, and for the number of
points, if there are any. Of literals it is a literal, with the value that variables of the same
values give, and it is the extent of the range of these points as long as distance and step add up
to a word. -/
theorem slice_extents {F : Type} (I : Interpretation F) {v w : View} {ss : List Selector}
    (hw : v.select ss = .ok (.view w)) :
    List.Forall₂ (Span.HasExtent I) (v.spans ss) w.shape := by
  obtain ⟨cs, -, hcs, -, rfl⟩ := View.select_eq_view_iff.1 hw
  refine List.rel_filterMap ?_ (Selector.forall₂_of_cutAll hcs)
  rintro ⟨s, extent⟩ c ⟨dim, hc⟩
  cases s with
  | «at» e =>
    obtain ⟨-, rfl⟩ := Selector.cut_at_eq_ok_iff.1 hc
    exact .none
  | span start stop step =>
    obtain ⟨n, hn, hextent⟩ := Span.hasExtent_of_cut (I := I) hc
    rw [hn]
    exact .some hextent

/-- Every third row from the second on, the columns in steps that are called for, and one depth. -/
def tiltSlices : List Selector :=
  [.span (some (.int 1)) none (some (.int 3)),
    .span none none (some (.call .int32 "step" [.var ⟨2, "k", .int32⟩, .int 0])),
    .at (.var ⟨2, "k", .int32⟩)]

theorem slice_extents_tilt : ∃ w n,
    (View.root ⟨0, "a", .float32⟩ [.int 8, .load ⟨1, "t", .int32⟩ [.int 0], .int 5]
      "global").select tiltSlices = .ok (.view w) ∧
    w.shape = [.int 3, n] ∧ tiltMeaning.Denotes n 2 ∧ (Range.strided 1 8 3).extent = .int 3 := by
  obtain ⟨w, hw⟩ : ∃ w, (View.root ⟨0, "a", .float32⟩
      [.int 8, .load ⟨1, "t", .int32⟩ [.int 0], .int 5] "global").select tiltSlices =
        .ok (.view w) := ⟨_, rfl⟩
  have hextents := slice_extents tiltMeaning hw
  obtain ⟨n, hshape⟩ : ∃ n, w.shape = [.int 3, n] := by
    obtain rfl := Selection.view.inj (Except.ok.inj hw)
    exact ⟨_, rfl⟩
  rw [hshape] at hextents
  obtain _ | ⟨hrows, _ | ⟨hcolumns, _⟩⟩ := hextents
  have hcalled : Span.Denotes tiltMeaning ⟨.int 0, .load ⟨1, "t", .int32⟩ [.int 0],
      .call .int32 "step" [.var ⟨2, "k", .int32⟩, .int 0]⟩ 0 3 2 := ⟨rfl, rfl, rfl⟩
  have htwo := hcolumns.ceil hcalled (by decide)
  rw [ceil_div_eq _ (by decide)] at htwo
  obtain ⟨m, hm, -, hrange⟩ := hrows.literal (b := 1) (e := 8) (s := 3) rfl
  exact ⟨w, n, hw, hshape, htwo, by rw [hrange (by decide), hm]⟩

end LoopNest
