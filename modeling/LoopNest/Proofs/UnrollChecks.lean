import LoopNest.Proofs.Unrolling

/-!
# Checking the last copy is enough

Before any loop is written out, one point of each range is checked, the last one. The points of a
range climb or fall steadily, so all of them are words if that one is, and no copy can fail once the
ranges are checked.

* `Copies.Fits`, `Copies.point`: the points of a range, and whether they are words;
* `LoopIndex.Expandable`, `LoopIndex.Refused`: a range all of whose points are words, and what is
  wrong with any other;
* **`Copies.Fits.of_le`**: a point bounds the points before it;
* **`Copies.expand_of_fits`**: copies that cannot fail;
* **`unroll_checks`**: when loops are written out, and the error otherwise.
-/

namespace LoopNest

/-! ## Points of a range -/

namespace Copies

/-- Copy `k` is at a word, and so is its point where the first one is a literal. -/
def Fits (c : Copies) (k : Int) : Prop :=
  Word.Fits (k * c.step.toInt) ∧
    ∀ b : Word, c.first = .int b → Word.Fits (b.toInt + k * c.step.toInt)

/-- Point `k`, as a literal where the first one is a literal. -/
def point (c : Copies) (k : Int) : Expr :=
  match c.first with
  | .int b => .int (Int64.ofInt (b.toInt + k * c.step.toInt))
  | first => first + .int (Int64.ofInt (k * c.step.toInt))

variable {c : Copies} {j k : Int}

theorem point_of_literal {b : Word} (hb : c.first = .int b) :
    c.point k = .int (Int64.ofInt (b.toInt + k * c.step.toInt)) := by
  rw [point, hb]

theorem point_of_not_literal (hfirst : ∀ b : Word, c.first ≠ .int b) :
    c.point k = c.first + .int (Int64.ofInt (k * c.step.toInt)) := by
  unfold point
  split
  · next b hb => exact absurd hb (hfirst b)
  · rfl

theorem offset_of_fits (h : c.Fits k) : c.offset k = .ok (c.point k) := by
  rw [offset, point, Word.ofInt?_of_fits h.1]
  cases hfirst : c.first with
  | int b =>
    have hsum : Word.add? b (Int64.ofInt (k * c.step.toInt)) =
        some (Int64.ofInt (b.toInt + k * c.step.toInt)) := by
      rw [Word.add?, Word.toInt_ofInt_of_fits h.1, Word.ofInt?_of_fits (h.2 b hfirst)]
    simp only [hsum]
  | float _ | str _ | var _ | binary _ _ _ | cast _ _ | load _ _ | call _ _ _ => rfl

theorem offset_of_not_fits (h : ¬c.Fits k) :
    c.offset k = .error (.configuration (.copyOverflow c.var k c.step)) := by
  rw [offset]
  by_cases hdelta : Word.Fits (k * c.step.toInt)
  · obtain ⟨b, hb, hsum⟩ : ∃ b : Word, c.first = .int b ∧
        ¬Word.Fits (b.toInt + k * c.step.toInt) := by
      simpa [Fits, hdelta] using h
    have hnone : Word.add? b (Int64.ofInt (k * c.step.toInt)) = none := by
      rw [Word.add?, Word.toInt_ofInt_of_fits hdelta, Word.ofInt?_of_not_fits hsum]
    simp only [Word.ofInt?_of_fits hdelta, hb, hnone]
  · rw [Word.ofInt?_of_not_fits hdelta]

/-- **A point bounds the points before it**: they lie between the first one and it. -/
theorem Fits.of_le (h : c.Fits k) (h0 : 0 ≤ j) (hjk : j ≤ k) : c.Fits j := by
  have hzero : Word.Fits 0 := by decide
  -- the step climbs or falls
  rcases le_total 0 c.step.toInt with hs | hs
  · have hj : 0 ≤ j * c.step.toInt := mul_nonneg h0 hs
    have hk : j * c.step.toInt ≤ k * c.step.toInt := mul_le_mul_of_nonneg_right hjk hs
    exact ⟨hzero.of_between h.1 hj hk, fun b hb =>
      (Word.fits_toInt b).of_between (h.2 b hb) (by omega) (by omega)⟩
  · have hj : j * c.step.toInt ≤ 0 := mul_nonpos_of_nonneg_of_nonpos h0 hs
    have hk : k * c.step.toInt ≤ j * c.step.toInt := mul_le_mul_of_nonpos_right hjk hs
    exact ⟨h.1.of_between hzero hk hj, fun b hb =>
      (h.2 b hb).of_between (Word.fits_toInt b) (by omega) (by omega)⟩

end Copies

/-! ## Steps that may fail, one for each member of a list -/

section

variable {ε α β : Type} {f : α → Except ε β} {xs : List α}

theorem mapM_eq_ok {g : α → β} (h : ∀ x ∈ xs, f x = .ok (g x)) : xs.mapM f = .ok (xs.map g) := by
  induction xs with
  | nil => rfl
  | cons x xs ih =>
    obtain ⟨hx, hxs⟩ := List.forall_mem_cons.1 h
    rw [List.mapM_cons, hx, ih hxs]
    rfl

/-- All steps succeed. -/
theorem exists_mapM_eq_ok_iff : (∃ ys, xs.mapM f = .ok ys) ↔ ∀ x ∈ xs, ∃ y, f x = .ok y := by
  induction xs with
  | nil => exact ⟨fun _ => List.forall_mem_nil _, fun _ => ⟨[], rfl⟩⟩
  | cons x xs ih =>
    rw [List.forall_mem_cons, ← ih, List.mapM_cons]
    simp only [bind_eq_ok_iff]
    constructor
    · rintro ⟨_, y, hy, ys, hys, -⟩
      exact ⟨⟨y, hy⟩, ys, hys⟩
    · rintro ⟨⟨y, hy⟩, ys, hys⟩
      exact ⟨y :: ys, y, hy, ys, hys, rfl⟩

/-- The error is that of the first step that fails. -/
theorem mapM_eq_error_iff {e : ε} : xs.mapM f = .error e ↔ ∃ before x after,
    xs = before ++ x :: after ∧ (∀ y ∈ before, ∃ z, f y = .ok z) ∧ f x = .error e := by
  induction xs with
  | nil => simp [pure, Except.pure]
  | cons x xs ih =>
    rw [List.mapM_cons, bind_eq_error_iff]
    simp only [bind_eq_error_iff, ih]
    constructor
    · rintro (hx | ⟨y, hy, ⟨before, z, after, rfl, hbefore, hz⟩ | ⟨_, -, h⟩⟩)
      · exact ⟨[], x, xs, rfl, List.forall_mem_nil _, hx⟩
      · exact ⟨x :: before, z, after, rfl, List.forall_mem_cons.2 ⟨⟨y, hy⟩, hbefore⟩, hz⟩
      · exact nomatch h
    · rintro ⟨_ | ⟨w, before⟩, z, after, heq, hbefore, hz⟩
      · obtain ⟨rfl, -⟩ := List.cons.inj heq
        exact .inl hz
      · obtain ⟨rfl, rfl⟩ := List.cons.inj heq
        obtain ⟨⟨y, hy⟩, hbefore⟩ := List.forall_mem_cons.1 hbefore
        exact .inr ⟨y, hy, .inl ⟨before, z, after, rfl, hbefore, hz⟩⟩

end

/-! ## Copies that cannot fail -/

/-- **Copies at words cannot fail.** -/
theorem Copies.expand_of_fits {c : Copies} (h : ∀ k, 0 ≤ k → k < c.extent.toInt → c.Fits k)
    (b : Block) : c.expand b = .ok (Block.ofList
      ((List.range c.extent.toInt.toNat).map fun k : Nat => b.subst [(c.var, c.point k)])) := by
  have hcopy : ∀ k ∈ List.range c.extent.toInt.toNat,
      (do return b.subst [(c.var, ← c.offset k)] : Except Error Block) =
        .ok (b.subst [(c.var, c.point k)]) := fun k hk => by
    have hk := List.mem_range.1 hk
    rw [Copies.offset_of_fits (h k (by omega) (by omega))]
    rfl
  rw [expand, mapM_eq_ok hcopy]
  rfl

theorem Block.statements_mapExprs (f : Expr → Expr) (b : Block) :
    (b.mapExprs f).statements = b.statements.map (mapExprs f) := by
  induction b with
  | seq a b iha ihb => rw [mapExprs, statements, iha, ihb, statements, List.map_append]
  | loop _ _ _ _ | alloc _ _ _ _ _ | bind _ _ _ | eval _ | store _ _ _ => rfl

/-- The statements of all copies, in order. -/
theorem Block.statements_expand {c : Copies}
    (h : ∀ k, 0 ≤ k → k < c.extent.toInt → c.Fits k) (hpos : 0 < c.extent.toInt) {b u : Block}
    (hu : c.expand b = .ok u) :
    u.statements = (List.range c.extent.toInt.toNat).flatMap fun k : Nat =>
      b.statements.map (subst [(c.var, c.point k)]) := by
  rw [Copies.expand_of_fits h] at hu
  obtain rfl := Except.ok.inj hu
  have hne : (List.range c.extent.toInt.toNat).map
      (fun k : Nat => b.subst [(c.var, c.point k)]) ≠ [] := by
    simp only [ne_eq, List.map_eq_nil_iff, List.range_eq_nil]
    omega
  rw [statements_ofList hne, List.flatMap_map]
  simp only [subst, statements_mapExprs]

theorem Copies.exists_foldrM_expand {plan : List Copies}
    (h : ∀ c ∈ plan, ∀ k, 0 ≤ k → k < c.extent.toInt → c.Fits k) (body : Block) :
    ∃ u, plan.foldrM (fun c b => c.expand b) body = .ok u := by
  induction plan with
  | nil => exact ⟨body, rfl⟩
  | cons c plan ih =>
    obtain ⟨hc, hplan⟩ := List.forall_mem_cons.1 h
    obtain ⟨b, hb⟩ := ih hplan
    rw [List.foldrM_cons]
    exact ⟨_, bind_eq_ok_iff.2 ⟨b, hb, Copies.expand_of_fits hc b⟩⟩

/-! ## Checked ranges -/

namespace LoopIndex

/-- Extent and step are literals, the extent is not negative, and every point is at a word and, if
the first one is a literal, a word itself. -/
def Expandable (i : LoopIndex) : Prop :=
  ∃ n s : Word, i.range.extent = .int n ∧ i.range.step = .int s ∧ 0 ≤ n.toInt ∧
    ∀ k : Int, 0 ≤ k → k < n.toInt → Word.Fits (k * s.toInt) ∧
      ∀ b : Word, i.range.first = .int b → Word.Fits (b.toInt + k * s.toInt)

/-- What is wrong with a range, and the error that says so. -/
inductive Refused (i : LoopIndex) : Error → Prop where
  | dynamic (h : ∀ n s : Word, ¬(i.range.extent = .int n ∧ i.range.step = .int s)) :
    Refused i (.unsupportedOperation (.dynamicUnroll i.var i.range))
  | negative {n s : Word} (hn : i.range.extent = .int n) (hs : i.range.step = .int s)
    (h : n.toInt < 0) : Refused i (.configuration (.negativeExtent i.var n))
  | overflow {n s : Word} (hn : i.range.extent = .int n) (hs : i.range.step = .int s) {k : Int}
    (h0 : 0 ≤ k) (hk : k < n.toInt) (h : ¬(Word.Fits (k * s.toInt) ∧
      ∀ b : Word, i.range.first = .int b → Word.Fits (b.toInt + k * s.toInt))) :
    Refused i (.configuration (.copyOverflow i.var (n.toInt - 1) s))

variable {i : LoopIndex} {n s : Word}

theorem expandable_or_refused (i : LoopIndex) : i.Expandable ∨ ∃ e, i.Refused e := by
  by_cases hlit : ∃ n s : Word, i.range.extent = .int n ∧ i.range.step = .int s
  · obtain ⟨n, s, hn, hs⟩ := hlit
    by_cases hneg : n.toInt < 0
    · exact .inr ⟨_, .negative hn hs hneg⟩
    · by_cases hfits : ∀ k : Int, 0 ≤ k → k < n.toInt → Word.Fits (k * s.toInt) ∧
          ∀ b : Word, i.range.first = .int b → Word.Fits (b.toInt + k * s.toInt)
      · exact .inl ⟨n, s, hn, hs, not_lt.1 hneg, hfits⟩
      · simp only [not_forall] at hfits
        obtain ⟨k, h0, hk, h⟩ := hfits
        exact .inr ⟨_, .overflow hn hs h0 hk h⟩
  · exact .inr ⟨_, .dynamic fun n s h => hlit ⟨n, s, h⟩⟩

theorem literal?_range (hn : i.range.extent = .int n) (hs : i.range.step = .int s) :
    i.range.literal? = some (n, s) := by
  rw [Range.literal?, hn, hs]
  rfl

theorem copies_of_expandable (h : i.Expandable) : ∃ c, i.copies = .ok c := by
  obtain ⟨n, s, hn, hs, h0, hfits⟩ := h
  rw [copies, literal?_range hn hs]
  simp only [if_neg (mt Word.lt_zero_iff.1 (not_lt.2 h0))]
  split
  · next hpos =>
    have hpos := Word.zero_lt_iff.1 hpos
    have hlast : (⟨i.var, i.range.first, n, s⟩ : Copies).Fits (n.toInt - 1) :=
      hfits _ (by omega) (by omega)
    rw [Copies.offset_of_fits hlast]
    exact ⟨_, rfl⟩
  · exact ⟨_, rfl⟩

theorem copies_of_refused {e : Error} (h : i.Refused e) : i.copies = .error e := by
  cases h with
  | dynamic h =>
    have hnone : i.range.literal? = none := by
      cases hlit : i.range.literal? with
      | none => rfl
      | some p =>
        simp only [Range.literal?, Option.bind_eq_bind, Option.bind_eq_some_iff,
          Expr.literal?_eq_some_iff] at hlit
        obtain ⟨n, hn, s, hs, -⟩ := hlit
        exact absurd ⟨hn, hs⟩ (h n s)
    rw [copies, hnone]
  | @negative n s hn hs h =>
    rw [copies, literal?_range hn hs]
    exact if_pos (Word.lt_zero_iff.2 h)
  | @overflow n s hn hs k h0 hk h =>
    -- were the last point a word, so would point `k` be
    have hlast : ¬(⟨i.var, i.range.first, n, s⟩ : Copies).Fits (n.toInt - 1) := fun hlast =>
      h (hlast.of_le h0 (by omega))
    have hneg : ¬n < 0 := mt Word.lt_zero_iff.1 (by omega)
    have hpos : 0 < n := Word.zero_lt_iff.2 (by omega)
    rw [copies, literal?_range hn hs]
    simp only [if_neg hneg, if_pos hpos, Copies.offset_of_not_fits hlast]
    rfl

theorem exists_copies_eq_ok_iff : (∃ c, i.copies = .ok c) ↔ i.Expandable := by
  refine ⟨fun ⟨c, hc⟩ => ?_, copies_of_expandable⟩
  rcases expandable_or_refused i with h | ⟨e, he⟩
  · exact h
  · exact nomatch hc.symm.trans (copies_of_refused he)

theorem copies_eq_error_iff {e : Error} : i.copies = .error e ↔ i.Refused e := by
  refine ⟨fun h => ?_, copies_of_refused⟩
  rcases expandable_or_refused i with hi | ⟨d, hd⟩
  · obtain ⟨c, hc⟩ := copies_of_expandable hi
    exact nomatch h.symm.trans hc
  · obtain rfl := Except.error.inj (h.symm.trans (copies_of_refused hd))
    exact hd

/-- **Every copy of a checked range is at a word.** -/
theorem fits_of_copies {c : Copies} (h : i.copies = .ok c) {k : Int} (h0 : 0 ≤ k)
    (hk : k < c.extent.toInt) : c.Fits k := by
  obtain ⟨-, hfirst, hextent, hstep⟩ := copies_eq_ok h
  obtain ⟨n, s, hn, hs, -, hfits⟩ := exists_copies_eq_ok_iff.1 ⟨c, h⟩
  obtain rfl := Expr.int.inj (hextent.symm.trans hn)
  obtain rfl := Expr.int.inj (hstep.symm.trans hs)
  rw [Copies.Fits, hfirst]
  exact hfits k h0 hk

theorem fits_of_mapM_copies {is : List LoopIndex} {plan : List Copies}
    (h : is.mapM copies = .ok plan) : ∀ c ∈ plan, ∀ k, 0 ≤ k → k < c.extent.toInt → c.Fits k := by
  intro c hc k h0 hk
  obtain ⟨i, hi⟩ := forall₂_mem_right (forall₂_of_mapM_eq_ok h) hc
  exact fits_of_copies hi h0 hk

end LoopIndex

/-- **Checking the last copy is enough.** Loops over several indices are written out exactly if
every range has a literal extent that is not negative, a literal step, and words for all its points.
Once the ranges are checked no copy fails, whatever the body. Otherwise the error is that of the
first range in declared order with which something is wrong. -/
theorem unroll_checks (is : List LoopIndex) (body : Block) :
    ((∃ u, Block.unroll is body = .ok u) ↔ ∀ i ∈ is, i.Expandable) ∧
    (∀ plan, is.mapM LoopIndex.copies = .ok plan →
      (∀ c ∈ plan, ∀ k, 0 ≤ k → k < c.extent.toInt → ∃ r, c.offset k = .ok r) ∧
      ∃ u, plan.foldrM (fun c b => c.expand b) body = .ok u) ∧
    ∀ e, Block.unroll is body = .error e ↔ ∃ before i after, is = before ++ i :: after ∧
      (∀ j ∈ before, j.Expandable) ∧ i.Refused e := by
  have hexpand : ∀ plan, is.mapM LoopIndex.copies = .ok plan →
      ∃ u, plan.foldrM (fun c b => c.expand b) body = .ok u := fun plan hplan =>
    Copies.exists_foldrM_expand (LoopIndex.fits_of_mapM_copies hplan) body
  refine ⟨?_, fun plan hplan => ⟨fun c hc k h0 hk => ?_, hexpand plan hplan⟩, fun e => ?_⟩
  · simp only [← LoopIndex.exists_copies_eq_ok_iff, ← exists_mapM_eq_ok_iff]
    constructor
    · rintro ⟨u, hu⟩
      obtain ⟨plan, hplan, -⟩ := bind_eq_ok_iff.1 hu
      exact ⟨plan, hplan⟩
    · rintro ⟨plan, hplan⟩
      obtain ⟨u, hu⟩ := hexpand plan hplan
      exact ⟨u, bind_eq_ok_iff.2 ⟨plan, hplan, hu⟩⟩
  · exact ⟨_, Copies.offset_of_fits (LoopIndex.fits_of_mapM_copies hplan c hc k h0 hk)⟩
  · simp only [← LoopIndex.exists_copies_eq_ok_iff, ← LoopIndex.copies_eq_error_iff,
      ← mapM_eq_error_iff]
    rw [Block.unroll, bind_eq_error_iff]
    refine or_iff_left ?_
    rintro ⟨plan, hplan, h⟩
    obtain ⟨u, hu⟩ := hexpand plan hplan
    exact nomatch h.symm.trans hu

end LoopNest
