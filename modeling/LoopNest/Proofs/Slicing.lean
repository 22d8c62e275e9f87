import LoopNest.Proofs.Evaluation
import LoopNest.Trace.Basic

/-!
# Views cut out of one another

What a selection gives, what of it can fail, and what holds of every view that was made from a root
by slicing again and again.

* `View.slices`: one slice after the other;
* `Cut.terms`, `View.terms`: what the links of a view depend on;
* `View.Aligned`: one cut for each dimension of the parent, at every link;
* `Selector.Within`: positions that no literal extent forbids;
* **`View.slice_eq_ok_iff`**, **`View.element_at_eq_ok_iff`**: what a slice and an element are;
* **`View.slices_induction`**: what one slice preserves, a chain of slices preserves.
-/

namespace LoopNest

/-! ## Selectors -/

namespace Selector

/-- The expressions of a selector. -/
def exprs : Selector → List Expr
  | .at e => [e]
  | span start stop step => start.toList ++ stop.toList ++ step.toList

theorem cut_at_eq_ok_iff {dim : Nat} {extent e : Expr} {c : Cut} :
    (Selector.at e).cut dim extent = .ok c ↔
      checkPosition dim e extent = .ok () ∧ c = .fixed e := by
  rw [cut, bind_eq_ok_iff]
  constructor
  · rintro ⟨_, h, hc⟩
    exact ⟨h, (Except.ok.inj hc).symm⟩
  · rintro ⟨h, rfl⟩
    exact ⟨(), h, rfl⟩

theorem cut_span_eq_ok_iff {dim : Nat} {extent : Expr} {start stop step : Option Expr} {c : Cut} :
    (span start stop step).cut dim extent = .ok c ↔ ∃ n,
      checkStep dim (step.getD (.int 1)) = .ok () ∧
      checkSpan dim (start.getD (.int 0)) (stop.getD extent) extent = .ok () ∧
      spanExtent dim (start.getD (.int 0)) (stop.getD extent) (step.getD (.int 1)) = .ok n ∧
      c = .strided (start.getD (.int 0)) (step.getD (.int 1)) n := by
  simp only [cut, bind_eq_ok_iff]
  constructor
  · rintro ⟨_, hstep, _, hspan, n, hn, hc⟩
    exact ⟨n, hstep, hspan, hn, (Except.ok.inj hc).symm⟩
  · rintro ⟨n, hstep, hspan, hn, rfl⟩
    exact ⟨(), hstep, (), hspan, n, hn, rfl⟩

theorem checkPosition_eq_ok_iff {dim : Nat} {e extent : Expr} :
    checkPosition dim e extent = .ok () ↔
      ∀ i n : Word, e = .int i → extent = .int n → 0 ≤ i ∧ i < n := by
  unfold checkPosition
  split
  · next i n hi hn =>
    obtain rfl := Expr.literal?_eq_some_iff.1 hi
    obtain rfl := Expr.literal?_eq_some_iff.1 hn
    have hin : (∀ j m : Word, Expr.int i = .int j → Expr.int n = .int m → 0 ≤ j ∧ j < m) ↔
        ¬(i < 0 ∨ n ≤ i) := by
      rw [not_or, Int64.not_lt, Int64.not_le]
      exact ⟨fun h => h i n rfl rfl, fun h j m hj hm => Expr.int.inj hj ▸ Expr.int.inj hm ▸ h⟩
    rw [hin]
    split <;> simp_all
  · next h =>
    refine ⟨fun _ i n hi hn => absurd (hn ▸ rfl) (h i n (hi ▸ rfl)), fun _ => rfl⟩

theorem cutAll_cons_eq_ok_iff {dim : Nat} {s : Selector} {ss : List Selector} {e : Expr}
    {es : List Expr} {cs : List Cut} : cutAll dim (s :: ss) (e :: es) = .ok cs ↔
      ∃ c ds, s.cut dim e = .ok c ∧ cutAll (dim + 1) ss es = .ok ds ∧ cs = c :: ds := by
  simp only [cutAll, bind_eq_ok_iff]
  constructor
  · rintro ⟨c, hc, ds, hds, h⟩
    exact ⟨c, ds, hc, hds, (Except.ok.inj h).symm⟩
  · rintro ⟨c, ds, hc, hds, rfl⟩
    exact ⟨c, hc, ds, hds, rfl⟩

/-- Each cut is that of one selector on one dimension. -/
theorem forall₂_of_cutAll {dim : Nat} {ss : List Selector} {es : List Expr} {cs : List Cut}
    (h : cutAll dim ss es = .ok cs) :
    List.Forall₂ (fun p c => ∃ d, p.1.cut d p.2 = .ok c) (ss.zip es) cs := by
  induction ss generalizing dim es cs with
  | nil =>
    obtain rfl := Except.ok.inj h
    exact .nil
  | cons s ss ih =>
    cases es with
    | nil =>
      obtain rfl := Except.ok.inj h
      exact .nil
    | cons e es =>
      obtain ⟨c, ds, hc, hds, rfl⟩ := cutAll_cons_eq_ok_iff.1 h
      exact .cons ⟨dim, hc⟩ (ih hds)

/-- Positions, none of which is a literal outside a literal extent. -/
def Within (positions shape : List Expr) : Prop :=
  List.Forall₂ (fun e extent => ∀ i n : Word, e = .int i → extent = .int n → 0 ≤ i ∧ i < n)
    positions shape

theorem cutAll_at_eq_ok_iff {dim : Nat} {is es : List Expr} (hlen : is.length = es.length)
    {cs : List Cut} : cutAll dim (is.map Selector.at) es = .ok cs ↔
      Within is es ∧ cs = is.map Cut.fixed := by
  induction is generalizing dim es cs with
  | nil =>
    obtain rfl := List.eq_nil_of_length_eq_zero hlen.symm
    exact ⟨fun h => ⟨.nil, (Except.ok.inj h).symm⟩, fun h => h.2 ▸ rfl⟩
  | cons i is ih =>
    cases es with
    | nil => exact nomatch hlen
    | cons e es =>
      rw [List.map_cons, cutAll_cons_eq_ok_iff]
      simp only [cut_at_eq_ok_iff, ih (Nat.succ.inj hlen), checkPosition_eq_ok_iff]
      constructor
      · rintro ⟨c, ds, ⟨hi, rfl⟩, ⟨his, rfl⟩, rfl⟩
        exact ⟨.cons hi his, rfl⟩
      · rintro ⟨_ | ⟨hi, his⟩, rfl⟩
        exact ⟨_, _, ⟨hi, rfl⟩, ⟨his, rfl⟩, rfl⟩

end Selector

/-! ## Selections -/

theorem Cut.any_isStrided_map_fixed (is : List Expr) :
    (is.map fixed).any isStrided = false := by
  simp [isStrided]

theorem Cut.filterMap_offset?_map_fixed (is : List Expr) :
    (is.map fixed).filterMap offset? = is := by
  rw [List.filterMap_map]
  exact List.filterMap_some

namespace View

variable {v w : View} {ss : List Selector}

theorem select_eq_view_iff : v.select ss = .ok (.view w) ↔ ∃ cs, ss.length = v.rank ∧
    Selector.cutAll 0 ss v.shape = .ok cs ∧ cs.any Cut.isStrided = true ∧ w = .sliced v cs := by
  unfold select
  split
  · next h =>
    constructor
    · intro h'
      exact nomatch h'
    · rintro ⟨_, hlen, -⟩
      exact absurd hlen h
  · next h =>
    rw [bind_eq_ok_iff]
    constructor
    · rintro ⟨cs, hcs, hw⟩
      split at hw
      · next hany =>
        obtain rfl := Selection.view.inj (Except.ok.inj hw)
        exact ⟨cs, not_not.1 h, hcs, hany, rfl⟩
      · obtain ⟨_, -, hw⟩ := bind_eq_ok_iff.1 hw
        exact nomatch hw
    · rintro ⟨cs, -, hcs, hany, rfl⟩
      exact ⟨cs, hcs, if_pos hany⟩

theorem select_eq_element_iff {b : Var} {is : List Expr} :
    v.select ss = .ok (.element b is) ↔ ∃ cs, ss.length = v.rank ∧
      Selector.cutAll 0 ss v.shape = .ok cs ∧ cs.any Cut.isStrided = false ∧
      v.locate (cs.filterMap Cut.offset?) = .ok is ∧ b = v.buffer := by
  unfold select
  split
  · next h =>
    constructor
    · intro h'
      exact nomatch h'
    · rintro ⟨_, hlen, -⟩
      exact absurd hlen h
  · next h =>
    rw [bind_eq_ok_iff]
    constructor
    · rintro ⟨cs, hcs, hb⟩
      split at hb
      · exact nomatch hb
      · next hany =>
        obtain ⟨js, hjs, hb⟩ := bind_eq_ok_iff.1 hb
        obtain ⟨rfl, rfl⟩ := Selection.element.inj (Except.ok.inj hb)
        exact ⟨cs, not_not.1 h, hcs, Bool.eq_false_iff.2 hany, hjs, rfl⟩
    · rintro ⟨cs, -, hcs, hany, his, rfl⟩
      refine ⟨cs, hcs, ?_⟩
      rw [if_neg (Bool.eq_false_iff.1 hany)]
      exact bind_eq_ok_iff.2 ⟨is, his, rfl⟩

/-- **A slice has one cut for each selector, some of which keep a dimension.** -/
theorem slice_eq_ok_iff : v.slice ss = .ok w ↔ ∃ cs, ss.length = v.rank ∧
    Selector.cutAll 0 ss v.shape = .ok cs ∧ cs.any Cut.isStrided = true ∧ w = .sliced v cs := by
  rw [← select_eq_view_iff, slice, bind_eq_ok_iff]
  constructor
  · rintro ⟨x, hx, hw⟩
    cases x with
    | view u =>
      obtain rfl := Except.ok.inj hw
      exact hx
    | element b is => exact nomatch hw
  · intro h
    exact ⟨_, h, rfl⟩

theorem element_eq_ok_iff {e : Expr} : v.element ss = .ok e ↔
    ∃ is, v.select ss = .ok (.element v.buffer is) ∧ e = .load v.buffer is := by
  rw [element, bind_eq_ok_iff]
  constructor
  · rintro ⟨x, hx, he⟩
    cases x with
    | view u => exact nomatch he
    | element b is =>
      obtain ⟨_, _, _, _, _, rfl⟩ := select_eq_element_iff.1 hx
      exact ⟨is, hx, (Except.ok.inj he).symm⟩
  · rintro ⟨is, hx, rfl⟩
    exact ⟨_, hx, rfl⟩

/-- Positions in every dimension select an element, if no literal forbids it. -/
theorem select_at_eq_ok_iff {is js : List Expr} (hlen : is.length = v.rank) {b : Var} :
    v.select (is.map Selector.at) = .ok (.element b js) ↔
      Selector.Within is v.shape ∧ v.locate is = .ok js ∧ b = v.buffer := by
  rw [select_eq_element_iff]
  simp only [Selector.cutAll_at_eq_ok_iff hlen]
  constructor
  · rintro ⟨cs, -, ⟨hin, rfl⟩, -, hjs, hb⟩
    rw [Cut.filterMap_offset?_map_fixed] at hjs
    exact ⟨hin, hjs, hb⟩
  · rintro ⟨hin, hjs, hb⟩
    refine ⟨is.map Cut.fixed, (List.length_map _).trans hlen, ⟨hin, rfl⟩,
      Cut.any_isStrided_map_fixed is, ?_, hb⟩
    rw [Cut.filterMap_offset?_map_fixed]
    exact hjs

/-- **An element is a load of the storage**, where the positions are located. -/
theorem element_at_eq_ok_iff {is : List Expr} (hlen : is.length = v.rank) {e : Expr} :
    v.element (is.map Selector.at) = .ok e ↔ Selector.Within is v.shape ∧
      ∃ js, v.locate is = .ok js ∧ e = .load v.buffer js := by
  rw [element_eq_ok_iff]
  simp only [select_at_eq_ok_iff hlen]
  constructor
  · rintro ⟨js, ⟨hin, hjs, -⟩, rfl⟩
    exact ⟨hin, js, hjs, rfl⟩
  · rintro ⟨hin, js, hjs, rfl⟩
    exact ⟨js, ⟨hin, hjs, trivial⟩, rfl⟩

end View

theorem Trace.store_eq_ok_iff {t u : Trace} {v : View} {ss : List Selector} {x : Expr} :
    t.store v ss x = .ok u ↔ ∃ b is, v.select ss = .ok (.element b is) ∧
      u = t.add (.store b is x) := by
  rw [Trace.store, bind_eq_ok_iff]
  constructor
  · rintro ⟨s, hs, hu⟩
    cases s with
    | view w => exact nomatch hu
    | element b is => exact ⟨b, is, hs, (Except.ok.inj hu).symm⟩
  · rintro ⟨b, is, hs, rfl⟩
    exact ⟨_, hs, rfl⟩

/-! ## Chains of slices -/

/-- What a cut depends on: a fixed position, or the first position and the step. -/
def Cut.terms : Cut → List Expr
  | fixed e => [e]
  | strided b s _ => [b, s]

namespace View

/-- What the links of a view depend on. -/
def terms : View → List Expr
  | .root _ _ _ => []
  | sliced p cs => p.terms ++ cs.flatMap Cut.terms

/-- Slice one view after the other. -/
def slices (v : View) (chain : List (List Selector)) : Except Error View := chain.foldlM slice v

variable {v w : View} {chain : List (List Selector)}

/-- **What one slice preserves, a chain of slices preserves.** The selectors of the slice are among
those of the chain. -/
theorem slices_induction {P : View → Prop} (hw : v.slices chain = .ok w) (hv : P v)
    (step : ∀ u x ss, ss ∈ chain → P u → u.slice ss = .ok x → P x) : P w := by
  induction chain generalizing v with
  | nil =>
    obtain rfl := Except.ok.inj hw
    exact hv
  | cons ss chain ih =>
    rw [slices, List.foldlM_cons, bind_eq_ok_iff] at hw
    obtain ⟨u, hu, hw⟩ := hw
    exact ih hw (step v u ss List.mem_cons_self hv hu)
      fun u x ss hss => step u x ss (List.mem_cons_of_mem _ hss)

theorem buffer_base (v : View) : v.base.buffer = v.buffer := by
  induction v with
  | root b s c => rfl
  | sliced p cs ih => exact ih

/-- Slices stay over the same storage. -/
theorem base_of_slices (hw : v.slices chain = .ok w) : w.base = v.base := by
  refine slices_induction (P := fun u => u.base = v.base) hw rfl fun u x ss _ hu hx => ?_
  obtain ⟨cs, -, -, -, rfl⟩ := slice_eq_ok_iff.1 hx
  exact hu

/-- At every link there is one cut for each dimension of the parent. -/
def Aligned : View → Prop
  | .root _ _ _ => True
  | sliced p cs => p.Aligned ∧ cs.length = p.rank

/-- A slice has one cut for each dimension of the view that is sliced. -/
theorem length_cuts_of_slice {ss : List Selector} (hw : v.slice ss = .ok w) :
    w.cuts.length = v.rank := by
  obtain ⟨cs, hlen, hcs, -, rfl⟩ := slice_eq_ok_iff.1 hw
  have hzip := (Selector.forall₂_of_cutAll hcs).length_eq
  rw [List.length_zip, hlen, rank, Nat.min_self] at hzip
  exact hzip.symm

theorem aligned_of_slice {ss : List Selector} (hv : v.Aligned) (hw : v.slice ss = .ok w) :
    w.Aligned := by
  have hlen := length_cuts_of_slice hw
  obtain ⟨cs, -, -, -, rfl⟩ := slice_eq_ok_iff.1 hw
  exact ⟨hv, hlen⟩

theorem aligned_of_slices (hv : v.Aligned) (hw : v.slices chain = .ok w) : w.Aligned :=
  slices_induction hw hv fun _ _ _ _ hu hx => aligned_of_slice hu hx

/-- The rank is the number of dimensions that the last cuts keep. -/
theorem rank_sliced (p : View) (cs : List Cut) :
    (sliced p cs).rank = (cs.filter Cut.isStrided).length := by
  rw [rank, shape]
  induction cs with
  | nil => rfl
  | cons c cs ih =>
    cases c with
    | fixed e => exact ih
    | strided b s n => exact congrArg Nat.succ ih

end View

end LoopNest
