import LoopNest.Proofs.RowMajor
import LoopNest.Proofs.Slicing

/-!
# Constant views

Views of literal extents, cut by literals. Words are checked when they are folded, and the extent of
a slice is computed without a check; between a first and a last position that lie in the parent,
neither leaves the words. So each index of the view is one element of the root, and no two are the
same.

* `Word.points?`, `Selector.cut?`, `Cut.place?`, `View.locate?`: extents and positions in words,
  with every operation checked;
* `Cut.LiesIn`, `View.Constant`: cuts by literals with all their positions in the parent, and the
  views made by them;
* **`View.Constant.slice`**, **`View.Constant.locate`**, **`View.Constant.locate?_injective`**;
* **`slices_constant`**: every chain of slices by literals.
-/

namespace LoopNest

open Layout (Inside)

/-! ## Checked arithmetic that succeeds -/

namespace Word

variable {a b c e s m : Word}

/-- A number between zero and a word is a word. -/
theorem exists_ofInt? {n : Int} (h0 : 0 ≤ n) (hn : n ≤ a.toInt) :
    ∃ x, ofInt? n = some x ∧ x.toInt = n := by
  have ha : a.toInt < 2 ^ 63 := a.toInt_lt
  cases hx : ofInt? n with
  | none => exact absurd ⟨by omega, by omega⟩ (ofInt?_eq_none_iff.1 hx)
  | some x => exact ⟨x, rfl, ofInt?_eq_some_iff.1 hx⟩

theorem eq_ofInt {n : Int} (h : ofInt? n = some c) : c = Int64.ofInt n := by
  rw [← ofInt?_eq_some_iff.1 h, Int64.ofInt_toInt]

/-- A checked sum is the sum. -/
theorem add_of_add? (h : add? a b = some c) : a + b = c := by
  rw [eq_ofInt h, Int64.ofInt_add, Int64.ofInt_toInt, Int64.ofInt_toInt]

/-- A checked difference is the difference. -/
theorem sub_of_sub? (h : sub? a b = some c) : a - b = c := by
  rw [eq_ofInt h, Int64.ofInt_sub, Int64.ofInt_toInt, Int64.ofInt_toInt]

/-- A checked quotient is the quotient. -/
theorem div_of_quot? (h : quot? a b = some c) : a / b = c := by
  unfold quot? at h
  split at h
  · exact nomatch h
  · rw [eq_ofInt h, Int64.ofInt_tdiv a.minValue_le_toInt a.toInt_le b.minValue_le_toInt b.toInt_le,
      Int64.ofInt_toInt, Int64.ofInt_toInt]

/-- **A positive distance has a number of steps**, rounded up, and no operation overflows. -/
theorem exists_steps {width : Word} (hw : 0 < width.toInt) (hs : 1 ≤ s.toInt) :
    ∃ last steps m, sub? width 1 = some last ∧ quot? last s = some steps ∧
      add? steps 1 = some m ∧ (width - 1) / s + 1 = m ∧
      m.toInt = (width.toInt - 1) / s.toInt + 1 := by
  have hone : (1 : Word).toInt = 1 := rfl
  have hzero : s ≠ 0 := by
    rintro rfl
    exact absurd hs (by decide)
  obtain ⟨last, hlast, hl⟩ := exists_ofInt? (a := width) (n := width.toInt - (1 : Word).toInt)
    (by omega) (by omega)
  have hdiv : last.toInt.tdiv s.toInt = (width.toInt - 1) / s.toInt := by
    rw [Int.tdiv_eq_ediv_of_nonneg (by omega), hl, hone]
  have hq0 : 0 ≤ (width.toInt - 1) / s.toInt := Int.ediv_nonneg (by omega) (by omega)
  have hqle : (width.toInt - 1) / s.toInt ≤ width.toInt - 1 := Int.ediv_le_self _ (by omega)
  obtain ⟨steps, hsteps, hq⟩ := exists_ofInt? (a := last) hq0 (by omega)
  obtain ⟨m, hm, hm'⟩ := exists_ofInt? (a := width) (n := steps.toInt + (1 : Word).toInt)
    (by omega) (by omega)
  have hquot : quot? last s = some steps := by rw [quot?, if_neg hzero, hdiv, hsteps]
  refine ⟨last, steps, m, hlast, hquot, hm, ?_, by omega⟩
  rw [sub_of_sub? hlast, div_of_quot? hquot, add_of_add? hm]

/-- The number of positions from `b` below `e`, every `s`-th, with every operation checked. -/
def points? (b e s : Word) : Option Word := do
  let width ← sub? e b
  let last ← sub? width 1
  let steps ← quot? last s
  add? steps 1

/-- **No operation overflows**, whatever the step, and the last of the positions is below the
end. -/
theorem points?_eq_some (h0 : 0 ≤ b.toInt) (hbe : b.toInt < e.toInt) (hs : 1 ≤ s.toInt) :
    ∃ width m, sub? e b = some width ∧ 0 < width ∧ points? b e s = some m ∧
      (width - 1) / s + 1 = m ∧ 1 ≤ m.toInt ∧ b.toInt + (m.toInt - 1) * s.toInt < e.toInt := by
  obtain ⟨width, hwidth, hw⟩ := exists_ofInt? (a := e) (n := e.toInt - b.toInt)
    (by omega) (by omega)
  have hpos : 0 < width.toInt := by omega
  obtain ⟨last, steps, m, hlast, hsteps, hm, hdiv, hm'⟩ := exists_steps hpos hs
  have hq0 : 0 ≤ (width.toInt - 1) / s.toInt := Int.ediv_nonneg (by omega) (by omega)
  have hle : (width.toInt - 1) / s.toInt * s.toInt ≤ width.toInt - 1 :=
    Int.ediv_mul_le _ (by omega)
  refine ⟨width, m, hwidth, zero_lt_iff.2 hpos, ?_, hdiv, by omega, ?_⟩
  · have hwidth : sub? e b = some width := hwidth
    simp only [points?, hwidth, hlast, hsteps, hm, Option.bind_eq_bind, Option.bind_some]
  · rw [hm', add_sub_cancel_right]
    omega

end Word

/-! ## Cuts by literals -/

/-- What a selector of literals cuts out of a dimension of literal extent, with every operation
checked. -/
def Selector.cut? (n : Word) : Selector → Option Cut
  | .at e => do
    let i ← e.literal?
    return .fixed (.int i)
  | span start stop step => do
    let b ← (start.getD (.int 0)).literal?
    let e ← (stop.getD (.int n)).literal?
    let s ← (step.getD (.int 1)).literal?
    let m ← Word.points? b e s
    return .strided (.int b) (.int s) (.int m)

namespace Cut

/-- A cut by literals, all of whose positions are below `n`. -/
inductive LiesIn (n : Word) : Cut → Prop where
  | fixed {k : Word} (h0 : 0 ≤ k.toInt) (hk : k.toInt < n.toInt) : LiesIn n (.fixed (.int k))
  | strided {b s m : Word} (hb : 0 ≤ b.toInt) (hs : 1 ≤ s.toInt) (hm : 1 ≤ m.toInt)
    (hlast : b.toInt + (m.toInt - 1) * s.toInt < n.toInt) :
    LiesIn n (.strided (.int b) (.int s) (.int m))

/-- Positions in the parent, with every operation checked. -/
def place? : List Cut → List Word → Option (List Word)
  | [], _ => some []
  | fixed e :: cs, is => do
    let k ← e.literal?
    let ks ← place? cs is
    return k :: ks
  | strided _ _ _ :: _, [] => none
  | strided b s _ :: cs, i :: is => do
    let p ← Word.mul? i (← s.literal?)
    let k ← Word.add? (← b.literal?) p
    let ks ← place? cs is
    return k :: ks

end Cut

/-- Whole literals only. -/
def Selector.IsConstant (s : Selector) : Prop := ∀ e ∈ s.exprs, ∃ n : Word, e = .int n

namespace Selector

variable {dim : Nat} {n : Word} {s : Selector} {c : Cut}

theorem exists_eq_getD {o : Option Expr} (ho : ∀ e ∈ o.toList, ∃ n : Word, e = .int n) (d : Word) :
    ∃ k : Word, o.getD (.int d) = .int k := by
  cases o with
  | none => exact ⟨d, rfl⟩
  | some e => exact ho e (by simp)

theorem checkStep_int_eq_ok_iff {k : Word} :
    checkStep dim (.int k) = .ok () ↔ 1 ≤ k.toInt := by
  have hk : k ≤ 0 ↔ ¬1 ≤ k.toInt := by
    rw [Word.le_zero_iff]
    omega
  simp [checkStep, Expr.literal?, hk]

theorem checkSpan_int_eq_ok_iff {b e : Word} : checkSpan dim (.int b) (.int e) (.int n) = .ok () ↔
    0 ≤ b.toInt ∧ b.toInt < e.toInt ∧ e.toInt ≤ n.toInt := by
  simp [checkSpan, Expr.literal?, Int64.le_iff_toInt_le, Int64.lt_iff_toInt_lt]

/-- **An accepted selector of literals stays in the dimension**, and no operation overflows. -/
theorem cut_of_isConstant (hs : s.IsConstant) (hc : s.cut dim (.int n) = .ok c) :
    s.cut? n = some c ∧ c.LiesIn n := by
  cases s with
  | «at» e =>
    obtain ⟨k, rfl⟩ := hs e (by simp [exprs])
    obtain ⟨hin, rfl⟩ := cut_at_eq_ok_iff.1 hc
    obtain ⟨h0, hk⟩ := checkPosition_eq_ok_iff.1 hin k n rfl rfl
    rw [Word.zero_le_iff] at h0
    rw [Int64.lt_iff_toInt_lt] at hk
    exact ⟨rfl, .fixed h0 hk⟩
  | span start stop step =>
    simp only [IsConstant, exprs, List.forall_mem_append] at hs
    obtain ⟨⟨hstart, hstop⟩, hstep⟩ := hs
    obtain ⟨b, hb⟩ := exists_eq_getD hstart 0
    obtain ⟨e, he⟩ := exists_eq_getD hstop n
    obtain ⟨k, hk⟩ := exists_eq_getD hstep 1
    obtain ⟨x, hpos, hin, hx, rfl⟩ := cut_span_eq_ok_iff.1 hc
    rw [hk, checkStep_int_eq_ok_iff] at hpos
    rw [hb, he] at hin
    rw [hb, he, hk] at hx
    rw [hb, hk]
    obtain ⟨h0, hbe, hen⟩ := checkSpan_int_eq_ok_iff.1 hin
    obtain ⟨width, m, hwidth, hpositive, hm, hdiv, hm1, hlast⟩ := Word.points?_eq_some h0 hbe hpos
    have hmx : x = .int m := by
      simp only [spanExtent, Expr.literal?, hwidth, if_neg (Int64.not_le.2 hpositive), hdiv] at hx
      exact (Except.ok.inj hx).symm
    subst hmx
    refine ⟨?_, .strided h0 hpos hm1 (hlast.trans_le hen)⟩
    simp only [cut?, hb, he, hk, Expr.literal?, hm, Option.bind_eq_bind, Option.bind_some,
      Option.pure_def]

theorem cutAll_of_isConstant {ss : List Selector} {ns : List Word} {cs : List Cut}
    (hlen : ss.length = ns.length) (hss : ∀ s ∈ ss, s.IsConstant)
    (hcs : cutAll dim ss (ns.map .int) = .ok cs) :
    List.Forall₂ (fun p c => p.1.cut? p.2 = some c) (ss.zip ns) cs ∧
      List.Forall₂ Cut.LiesIn ns cs := by
  induction ss generalizing dim ns cs with
  | nil =>
    obtain rfl := List.eq_nil_of_length_eq_zero hlen.symm
    obtain rfl := Except.ok.inj hcs
    exact ⟨.nil, .nil⟩
  | cons s ss ih =>
    cases ns with
    | nil => exact nomatch hlen
    | cons n ns =>
      obtain ⟨hs, hss⟩ := List.forall_mem_cons.1 hss
      obtain ⟨c, ds, hc, hds, rfl⟩ := cutAll_cons_eq_ok_iff.1 hcs
      obtain ⟨hc, hin⟩ := cut_of_isConstant hs hc
      obtain ⟨hds, hins⟩ := ih (Nat.succ.inj hlen) hss hds
      exact ⟨.cons hc hds, .cons hin hins⟩

end Selector

/-! ## Positions of literals -/

namespace Cut

variable {n : Word} {ns ms is js ks : List Word} {cs : List Cut}

/-- The extents that cuts by literals leave are positive literals. -/
theorem exists_extents (hcs : List.Forall₂ LiesIn ns cs) :
    ∃ ms : List Word, cs.filterMap extent? = ms.map .int ∧ ∀ m ∈ ms, 1 ≤ m.toInt := by
  induction hcs with
  | nil => exact ⟨[], rfl, by simp⟩
  | cons hc _ ih =>
    obtain ⟨ms, hms, hpos⟩ := ih
    cases hc with
    | fixed => exact ⟨ms, hms, hpos⟩
    | @strided b s m _ _ hm _ =>
      exact ⟨m :: ms, congrArg (Expr.int m :: ·) hms, List.forall_mem_cons.2 ⟨hm, hpos⟩⟩

/-- A position that the extent admits is scaled without overflow, and lies in the parent. -/
theorem position_of_lt {b s m i : Word} (hb : 0 ≤ b.toInt) (hs : 1 ≤ s.toInt)
    (hlast : b.toInt + (m.toInt - 1) * s.toInt < n.toInt) (h0 : 0 ≤ i.toInt)
    (hi : i.toInt < m.toInt) :
    ∃ p k, Word.mul? i s = some p ∧ Word.add? b p = some k ∧
      (Expr.int b + Expr.int i * Expr.int s).fold = .int k ∧ 0 ≤ k.toInt ∧ k.toInt < n.toInt := by
  have hle : i.toInt * s.toInt ≤ (m.toInt - 1) * s.toInt :=
    mul_le_mul_of_nonneg_right (by omega) (by omega)
  have hnonneg : 0 ≤ i.toInt * s.toInt := mul_nonneg h0 (by omega)
  obtain ⟨p, hp, hpi⟩ := Word.exists_ofInt? (a := n) hnonneg (by omega)
  obtain ⟨k, hk, hki⟩ := Word.exists_ofInt? (a := n) (n := b.toInt + p.toInt) (by omega) (by omega)
  have hmul : (Expr.int i * Expr.int s).fold = .int p := by
    show Expr.foldOperation .mul (.int i) (.int s) = .int p
    simp only [Expr.foldOperation, Expr.literal?, Operator.fold?, Word.mul?, hp]
  have hadd : (Expr.int b + Expr.int i * Expr.int s).fold = .int k := by
    show Expr.foldOperation .add (.int b) (Expr.int i * Expr.int s).fold = .int k
    rw [hmul]
    simp only [Expr.foldOperation, Expr.literal?, Operator.fold?, Word.add?, hk]
  exact ⟨p, k, hp, hk, hadd, by omega, by omega⟩

/-- **Literal positions in the extents are placed at literal positions in the parent**, and no
operation overflows. -/
theorem place_of_inside (hcs : List.Forall₂ LiesIn ns cs)
    (hms : cs.filterMap extent? = ms.map .int)
    (his : Inside (ms.map Int64.toInt) (is.map Int64.toInt)) :
    ∃ ks, place? cs is = some ks ∧ place cs (is.map .int) = some (ks.map .int) ∧
      Inside (ns.map Int64.toInt) (ks.map Int64.toInt) := by
  induction hcs generalizing ms is with
  | nil => exact ⟨[], rfl, rfl, .nil⟩
  | @cons n c ns cs hc _ ih =>
    cases hc with
    | @fixed k h0 hk =>
      obtain ⟨ks, hplace, hplace', hin⟩ := ih hms his
      refine ⟨k :: ks, ?_, ?_, .cons ⟨h0, hk⟩ hin⟩
      · simp only [place?, Expr.literal?, hplace, Option.bind_eq_bind, Option.bind_some,
          Option.pure_def]
      · rw [place, hplace']
        rfl
    | @strided b s m hb hs _ hlast =>
      obtain ⟨m', ms, rfl, hm, hms'⟩ := List.map_eq_cons_iff.1 hms.symm
      obtain rfl := Expr.int.inj hm
      cases is with
      | nil => cases his
      | cons i is =>
        obtain ⟨⟨h0, hi⟩, his⟩ := List.forall₂_cons.1 his
        obtain ⟨p, k, hmul, hadd, hfold, hk0, hk⟩ := position_of_lt hb hs hlast h0 hi
        obtain ⟨ks, hplace, hplace', hin⟩ := ih hms'.symm his
        refine ⟨k :: ks, ?_, ?_, .cons ⟨hk0, hk⟩ hin⟩
        · simp only [place?, Expr.literal?, hmul, hadd, hplace, Option.bind_eq_bind,
            Option.bind_some, Option.pure_def]
        · rw [List.map_cons, place, hplace', hfold]
          rfl

theorem mul?_injective {i j s p : Word} (hs : 1 ≤ s.toInt) (hi : Word.mul? i s = some p)
    (hj : Word.mul? j s = some p) : i = j := by
  have hij : i.toInt * s.toInt = j.toInt * s.toInt :=
    (Word.ofInt?_eq_some_iff.1 hi).symm.trans (Word.ofInt?_eq_some_iff.1 hj)
  exact Int64.toInt_inj.1 (Int.eq_of_mul_eq_mul_right (by omega) hij)

theorem add?_injective {b p q k : Word} (hp : Word.add? b p = some k)
    (hq : Word.add? b q = some k) : p = q := by
  have hpq : b.toInt + p.toInt = b.toInt + q.toInt :=
    (Word.ofInt?_eq_some_iff.1 hp).symm.trans (Word.ofInt?_eq_some_iff.1 hq)
  exact Int64.toInt_inj.1 (by omega)

/-- Different positions are placed at different positions. -/
theorem place?_injective (hcs : List.Forall₂ LiesIn ns cs)
    (hi : is.length = (cs.filter isStrided).length) (hj : js.length = (cs.filter isStrided).length)
    (his : place? cs is = some ks) (hjs : place? cs js = some ks) : is = js := by
  induction hcs generalizing is js ks with
  | nil => rw [List.eq_nil_of_length_eq_zero hi, List.eq_nil_of_length_eq_zero hj]
  | @cons n c ns cs hc _ ih =>
    cases hc with
    | @fixed k =>
      simp only [place?, Expr.literal?, Option.bind_eq_bind, Option.bind_some, Option.pure_def,
        Option.bind_eq_some_iff, Option.some.injEq] at his hjs
      obtain ⟨xs, his, rfl⟩ := his
      obtain ⟨ys, hjs, hxy⟩ := hjs
      obtain rfl := (List.cons.inj hxy).2
      exact ih hi hj his hjs
    | @strided b s m _ hs =>
      cases is with
      | nil => exact absurd hi (Nat.succ_ne_zero _).symm
      | cons i is =>
        cases js with
        | nil => exact absurd hj (Nat.succ_ne_zero _).symm
        | cons j js =>
          simp only [place?, Expr.literal?, Option.bind_eq_bind, Option.bind_some, Option.pure_def,
            Option.bind_eq_some_iff, Option.some.injEq] at his hjs
          obtain ⟨p, hp, k, hk, xs, his, rfl⟩ := his
          obtain ⟨q, hq, l, hl, ys, hjs, hxy⟩ := hjs
          obtain ⟨rfl, rfl⟩ := List.cons.inj hxy
          obtain rfl := add?_injective hk hl
          rw [mul?_injective hs hp hq, ih (Nat.succ.inj hi) (Nat.succ.inj hj) his hjs]

end Cut

/-! ## Views by literals -/

namespace View

variable {v w : View} {ns is js ks : List Word}

/-- Positions in the root, with every operation checked. -/
def locate? : View → List Word → Option (List Word)
  | .root _ _ _, is => some is
  | sliced p cs, is => do p.locate? (← Cut.place? cs is)

/-- A view of literal extents, made by cuts by literals that lie in their parents. -/
inductive Constant : View → List Word → Prop where
  | root (b : Var) (ns : List Word) (storage : String) :
    Constant (.root b (ns.map .int) storage) ns
  | sliced {p : View} {ns ms : List Word} {cs : List Cut} (hp : Constant p ns)
    (hcs : List.Forall₂ Cut.LiesIn ns cs) (hms : cs.filterMap Cut.extent? = ms.map .int) :
    Constant (.sliced p cs) ms

namespace Constant

theorem shape_eq (h : v.Constant ns) : v.shape = ns.map .int := by
  cases h with
  | root => rfl
  | sliced _ _ hms => exact hms

theorem rank_eq (h : v.Constant ns) : v.rank = ns.length := by
  rw [rank, h.shape_eq, List.length_map]

theorem length_eq (h : v.Constant ns) (his : Inside (ns.map Int64.toInt) (is.map Int64.toInt)) :
    is.length = v.rank := by
  rw [h.rank_eq]
  simpa using his.length_eq.symm

theorem within (h : v.Constant ns) (his : Inside (ns.map Int64.toInt) (is.map Int64.toInt)) :
    Selector.Within (is.map .int) v.shape := by
  rw [h.shape_eq, Selector.Within, List.forall₂_map_left_iff, List.forall₂_map_right_iff]
  rw [Inside, List.forall₂_map_left_iff, List.forall₂_map_right_iff] at his
  refine his.flip.imp fun i n hin j m hj hm => ?_
  obtain rfl := Expr.int.inj hj
  obtain rfl := Expr.int.inj hm
  rw [Word.zero_le_iff, Int64.lt_iff_toInt_lt]
  exact hin

/-- **A slice by literals is a view by literals**, of positive extents. -/
theorem slice {ss : List Selector} (h : v.Constant ns) (hss : ∀ s ∈ ss, s.IsConstant)
    (hw : v.slice ss = .ok w) : ∃ ms, w.Constant ms ∧ (∀ m ∈ ms, 1 ≤ m.toInt) ∧
      List.Forall₂ (fun p c => p.1.cut? p.2 = some c) (ss.zip ns) w.cuts := by
  obtain ⟨cs, hlen, hcs, -, rfl⟩ := slice_eq_ok_iff.1 hw
  rw [h.rank_eq] at hlen
  rw [h.shape_eq] at hcs
  obtain ⟨hchecked, hin⟩ := Selector.cutAll_of_isConstant hlen hss hcs
  obtain ⟨ms, hms, hpos⟩ := Cut.exists_extents hin
  exact ⟨ms, .sliced h hin hms, hpos, hchecked⟩

/-- **Literal indices of a view are located at literals**, which lie in the root, and no operation
overflows. -/
theorem locate (h : v.Constant ns) {dims : List Word} (hbase : v.base.shape = dims.map .int)
    (his : Inside (ns.map Int64.toInt) (is.map Int64.toInt)) :
    ∃ ks, v.locate? is = some ks ∧ v.locate (is.map .int) = .ok (ks.map .int) ∧
      Inside (dims.map Int64.toInt) (ks.map Int64.toInt) := by
  have hlen : (is.map Expr.int).length = v.rank := (List.length_map _).trans (h.length_eq his)
  induction h generalizing is with
  | root b ns st =>
    obtain rfl : ns = dims := List.map_injective_iff.2 (fun _ _ => Expr.int.inj) hbase
    refine ⟨is, rfl, ?_, his⟩
    rw [View.locate, if_neg (not_not.2 hlen), List.map_map]
    rfl
  | @sliced p ns ms cs hp hcs hms ih =>
    obtain ⟨ks, hplace, hplace', hin⟩ := Cut.place_of_inside hcs hms his
    obtain ⟨ls, hls, hls', hin'⟩ := ih hbase hin ((List.length_map _).trans (hp.length_eq hin))
    refine ⟨ls, ?_, ?_, hin'⟩
    · rw [locate?, hplace]
      exact hls
    · rw [View.locate, if_neg (not_not.2 hlen)]
      simp only [hplace']
      exact hls'

/-- **No two indices are located at one element.** -/
theorem locate?_injective (h : v.Constant ns)
    (hi : Inside (ns.map Int64.toInt) (is.map Int64.toInt))
    (hj : Inside (ns.map Int64.toInt) (js.map Int64.toInt)) (his : v.locate? is = some ks)
    (hjs : v.locate? js = some ks) : is = js := by
  have hilen := h.length_eq hi
  have hjlen := h.length_eq hj
  induction h generalizing is js with
  | root => exact Option.some.inj (his.trans hjs.symm)
  | @sliced p ns ms cs hp hcs hms ih =>
    rw [rank_sliced] at hilen hjlen
    obtain ⟨xs, hxs, -, hx⟩ := Cut.place_of_inside hcs hms hi
    obtain ⟨ys, hys, -, hy⟩ := Cut.place_of_inside hcs hms hj
    rw [locate?, hxs] at his
    rw [locate?, hys] at hjs
    obtain rfl := ih hx hy his hjs (hp.length_eq hx) (hp.length_eq hy)
    exact Cut.place?_injective hcs hilen hjlen hxs hys

end Constant

end View

/-- **Constant views are safe, and none of their elements is another.** In every chain of accepted
slices by literals of a root of literal extents, the extents are literals, positive in all but the
root; the indices that they admit are located at literals in the root, two different ones at two
different elements; and no operation on words overflows, here and in every further slice. -/
theorem slices_constant {b : Var} {dims : List Word} {storage : String}
    {chain : List (List Selector)} {v : View} (hchain : ∀ ss ∈ chain, ∀ s ∈ ss, s.IsConstant)
    (hv : (View.root b (dims.map .int) storage).slices chain = .ok v) :
    ∃ ns : List Word, v.shape = ns.map .int ∧ (v.isBase = false → ∀ n ∈ ns, 1 ≤ n.toInt) ∧
      (∀ is : List Word, Inside (ns.map Int64.toInt) (is.map Int64.toInt) → ∃ ks,
        v.locate? is = some ks ∧ v.locate (is.map .int) = .ok (ks.map .int) ∧
        v.element (is.map fun i => .at (.int i)) = .ok (.load b (ks.map .int)) ∧
        Inside (dims.map Int64.toInt) (ks.map Int64.toInt)) ∧
      (∀ is js : List Word, Inside (ns.map Int64.toInt) (is.map Int64.toInt) →
        Inside (ns.map Int64.toInt) (js.map Int64.toInt) → is ≠ js →
        v.locate (is.map .int) ≠ v.locate (js.map .int)) ∧
      ∀ ss w, (∀ s ∈ ss, s.IsConstant) → v.slice ss = .ok w →
        List.Forall₂ (fun p c => p.1.cut? p.2 = some c) (ss.zip ns) w.cuts := by
  have hbase : v.base.shape = dims.map .int := congrArg View.shape (View.base_of_slices hv)
  have hbuffer : v.buffer = b := by rw [← View.buffer_base, View.base_of_slices hv]; rfl
  obtain ⟨ns, hns, hpos⟩ := View.slices_induction
    (P := fun u => ∃ ns, u.Constant ns ∧ (u.isBase = false → ∀ n ∈ ns, 1 ≤ n.toInt)) hv
    ⟨dims, .root b dims storage, fun h => nomatch h⟩ fun u x ss hss hu hx => by
      obtain ⟨ns, hns, -⟩ := hu
      obtain ⟨ms, hms, hpos, -⟩ := hns.slice (hchain ss hss) hx
      exact ⟨ms, hms, fun _ => hpos⟩
  refine ⟨ns, hns.shape_eq, hpos, fun is his => ?_, fun is js hi hj hne heq => ?_,
    fun ss w hss hw => ?_⟩
  · obtain ⟨ks, hks, hks', hin⟩ := hns.locate hbase his
    have hlen : (is.map Expr.int).length = v.rank := (List.length_map _).trans (hns.length_eq his)
    have helement : v.element ((is.map Expr.int).map .at) = .ok (.load b (ks.map .int)) :=
      (View.element_at_eq_ok_iff hlen).2 ⟨hns.within his, _, hks', by rw [hbuffer]⟩
    rw [List.map_map] at helement
    exact ⟨ks, hks, hks', helement, hin⟩
  · obtain ⟨ks, hks, hks', -⟩ := hns.locate hbase hi
    obtain ⟨ls, hls, hls', -⟩ := hns.locate hbase hj
    rw [hks', hls', Except.ok.injEq] at heq
    obtain rfl := List.map_injective_iff.2 (fun _ _ => Expr.int.inj) heq
    exact hne (hns.locate?_injective hi hj hks hls)
  · obtain ⟨-, -, -, hchecked⟩ := hns.slice hss hw
    exact hchecked

/-- From the fourth row on, with the largest step there is; then every second column from the second
on, with that step again. -/
def hugeStepChain : List (List Selector) :=
  [[.span (some (.int 3)) none (some (.int 9223372036854775807)), .span none none none],
    [.span none none (some (.int 9223372036854775807)),
      .span (some (.int 1)) (some (.int 4)) (some (.int 2))]]

theorem slices_constant_hugeStep : ∃ v,
    (View.root ⟨0, "a", .float32⟩ [.int 10, .int 4] "global").slices hugeStepChain = .ok v ∧
    v.shape = [.int 1, .int 2] ∧ v.locate? [0, 1] = some [3, 3] ∧
    v.element [.at (.int 0), .at (.int 1)] = .ok (.load ⟨0, "a", .float32⟩ [.int 3, .int 3]) ∧
    v.locate [.int 0, .int 0] ≠ v.locate [.int 0, .int 1] := by
  obtain ⟨v, hv⟩ : ∃ v, (View.root ⟨0, "a", .float32⟩ (List.map Expr.int [10, 4]) "global").slices
      hugeStepChain = .ok v := ⟨_, rfl⟩
  have hchain : ∀ ss ∈ hugeStepChain, ∀ s ∈ ss, s.IsConstant := by
    simp [hugeStepChain, Selector.IsConstant, Selector.exprs]
  have hshape : v.shape = [.int 1, .int 2] := by
    obtain rfl := Except.ok.inj hv
    rfl
  have hks : v.locate? [0, 1] = some [3, 3] := by
    obtain rfl := Except.ok.inj hv
    rfl
  obtain ⟨ns, hns, -, hlocate, hne, -⟩ := slices_constant hchain hv
  obtain rfl : ns = [1, 2] :=
    List.map_injective_iff.2 (fun _ _ => Expr.int.inj) (hns.symm.trans hshape)
  obtain ⟨ks, hks', -, helement, -⟩ := hlocate [0, 1] (by decide)
  obtain rfl := Option.some.inj (hks.symm.trans hks')
  exact ⟨v, hv, hshape, hks, helement, hne [0, 0] [0, 1] (by decide) (by decide) (by decide)⟩

end LoopNest
