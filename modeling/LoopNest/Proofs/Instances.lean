import LoopNest.Proofs.Enumeration
import LoopNest.Proofs.Mentions

/-!
# Unrolled copies in row-major order

Loops over several indices are written out one index at a time, the innermost first, and each time
the copies made so far are copied again. What comes out is one instance of the body for each tuple
of the indices' numbers, the first index running slowest, and the instance has all points put in at
once.

* **`Layout.mem_cells_iff`**, **`Layout.pairwise_cells`**: all tuples, in lexicographic order;
* **`Expr.subst_subst`**, **`Block.subst_subst`**: putting in one expression after the others;
* `Copies.range`, `Copies.extents`, `Copies.points`: ranges of literals, and the points of a tuple;
* **`Copies.statements_foldrM`**: copies of copies;
* **`statements_unroll`**: the instances.
-/

namespace LoopNest

/-! ## Tuples in lexicographic order -/

namespace Layout

variable {dims c : List Int}

/-- **All positions are listed.** -/
theorem mem_cells_iff : c ∈ cells dims ↔ Inside dims c := by
  refine ⟨inside_of_mem_cells, fun h => ?_⟩
  induction h with
  | nil => exact List.mem_singleton.2 rfl
  | @cons d i ds is hi _ ih =>
    have hmem : i.toNat ∈ List.range d.toNat := List.mem_range.2 (by omega)
    refine List.mem_flatMap.2 ⟨i.toNat, hmem, List.mem_map.2 ⟨is, ih, ?_⟩⟩
    rw [Int.toNat_of_nonneg hi.1]

/-- **The positions are listed in lexicographic order.** -/
theorem pairwise_cells (dims : List Int) : (cells dims).Pairwise (· < ·) := by
  induction dims with
  | nil => exact List.pairwise_singleton _ _
  | cons d ds ih =>
    rw [cells, List.pairwise_flatMap]
    constructor
    · intro k _
      rw [List.pairwise_map]
      exact ih.imp fun h => List.cons_lt_cons_iff.2 (.inr ⟨rfl, h⟩)
    · refine List.pairwise_lt_range.imp fun hjk x hx y hy => ?_
      obtain ⟨_, -, rfl⟩ := List.mem_map.1 hx
      obtain ⟨_, -, rfl⟩ := List.mem_map.1 hy
      exact List.cons_lt_cons_iff.2 (.inl (Int.ofNat_lt.2 hjk))

theorem length_cells (hpos : ∀ d ∈ dims, 0 < d) : ((cells dims).length : Int) = dims.prod := by
  have hlen := congrArg List.length (map_rowMajor_cells hpos)
  rw [List.length_map, List.length_map, List.length_range] at hlen
  rw [hlen, Int.toNat_of_nonneg (prod_pos_of_forall hpos).le]

end Layout

/-! ## One substitution after the other -/

namespace Substitution

variable {σ : Substitution} {x v : Var} {r e : Expr}

theorem find?_cons : find? ((x, r) :: σ) v = (find? σ v).or (if x = v then some r else none) := by
  rw [find?, List.reverse_cons, List.find?_append, Option.map_or]
  congr 1
  by_cases h : x = v <;> simp [h]

theorem exists_of_find? (h : find? σ v = some e) : ∃ p ∈ σ, p.2 = e := by
  obtain ⟨p, hp, he⟩ := Option.map_eq_some_iff.1 h
  exact ⟨p, List.mem_reverse.1 (List.mem_of_find?_eq_some hp), he⟩

end Substitution

namespace Expr

variable {σ : Substitution} {x : Var} {r : Expr}

theorem subst_nil (e : Expr) : e.subst [] = e := by
  induction e using inductionOn with
  | int _ | float _ | str _ | var _ => rfl
  | binary op a b iha ihb => rw [subst_binary, iha, ihb]
  | cast t a iha => rw [subst_cast, iha]
  | load v is ih => rw [subst_load, List.map_congr_left ih, List.map_id']
  | call t f as ih => rw [subst_call, List.map_congr_left ih, List.map_id']

/-- What does not mention a variable stays when the variable is replaced. -/
theorem subst_of_notMem (e : Expr) (h : x ∉ e.vars) : e.subst [(x, r)] = e := by
  induction e using inductionOn with
  | int _ | float _ | str _ => rfl
  | var v =>
    rw [subst_var, if_neg]
    exact fun hv => h (List.mem_singleton.2 hv)
  | binary op a b iha ihb =>
    simp only [vars, List.mem_append, not_or] at h
    rw [subst_binary, iha h.1, ihb h.2]
  | cast t a iha => rw [subst_cast, iha h]
  | load v is ih =>
    simp only [vars, varsAll_eq_flatMap, List.mem_cons, List.mem_flatMap, not_or, not_exists,
      not_and] at h
    rw [subst_load, List.map_congr_left fun e he => ih e he (h.2 e he), List.map_id']
  | call t f as ih =>
    simp only [vars, varsAll_eq_flatMap, List.mem_flatMap, not_exists, not_and] at h
    rw [subst_call, List.map_congr_left fun e he => ih e he (h e he), List.map_id']

/-- **One expression put in after others is put in together with them**, where the others do not
mention its variable. -/
theorem subst_subst (h : ∀ p ∈ σ, x ∉ p.2.vars) (e : Expr) :
    (e.subst σ).subst [(x, r)] = e.subst ((x, r) :: σ) := by
  induction e using inductionOn with
  | int _ | float _ | str _ => rfl
  | var v =>
    show ((σ.find? v).getD (var v)).subst [(x, r)] =
      (Substitution.find? ((x, r) :: σ) v).getD (var v)
    rw [Substitution.find?_cons]
    cases hv : σ.find? v with
    | some e =>
      obtain ⟨p, hp, rfl⟩ := Substitution.exists_of_find? hv
      exact subst_of_notMem p.2 (h p hp)
    | none =>
      rw [Option.getD_none, subst_var, Option.none_or]
      split <;> rfl
  | binary op a b iha ihb => simp only [subst_binary, iha, ihb]
  | cast t a iha => simp only [subst_cast, iha]
  | load v is ih =>
    simp only [subst_load, List.map_map]
    exact congrArg (load v) (List.map_congr_left ih)
  | call t f as ih =>
    simp only [subst_call, List.map_map]
    exact congrArg (call t f) (List.map_congr_left ih)

end Expr

namespace Block

theorem mapExprs_mapExprs (f g : Expr → Expr) (b : Block) :
    (b.mapExprs f).mapExprs g = b.mapExprs (g ∘ f) := by
  induction b with
  | seq a b iha ihb => simp only [mapExprs, iha, ihb]
  | loop k i body ih => simp only [mapExprs, ih, Range.mapExprs, Function.comp_apply]
  | alloc v shape storage body ih => simp only [mapExprs, ih, List.map_map]
  | bind bs body ih => simp only [mapExprs, ih, List.map_map, Function.comp_def]
  | eval e => rfl
  | store v is e => simp only [mapExprs, List.map_map, Function.comp_apply]

theorem subst_nil (b : Block) : b.subst [] = b := by
  rw [subst, show Expr.subst [] = id from funext Expr.subst_nil, mapExprs_id]

theorem subst_subst {σ : Substitution} {x : Var} {r : Expr} (h : ∀ p ∈ σ, x ∉ p.2.vars)
    (b : Block) : (b.subst σ).subst [(x, r)] = b.subst ((x, r) :: σ) := by
  simp only [subst, mapExprs_mapExprs]
  congr 1
  funext e
  exact Expr.subst_subst h e

end Block

/-! ## Copies of copies -/

namespace Copies

/-- The range of the copies. -/
def range (c : Copies) : Range := ⟨c.first, .int c.extent, .int c.step⟩

/-- The extents of several ranges. -/
def extents (cs : List Copies) : List Int := cs.map fun c => c.extent.toInt

/-- The points of a tuple, one for each variable. -/
def points (cs : List Copies) (ks : List Int) : Substitution :=
  List.zipWith (fun c k => (c.var, c.point k)) cs ks

variable {c : Copies} {cs : List Copies} {k : Int}

theorem vars_point (c : Copies) (k : Int) : ∀ v ∈ (c.point k).vars, v ∈ c.first.vars := by
  intro v hv
  unfold point at hv
  split at hv
  · exact absurd hv List.not_mem_nil
  · change v ∈ c.first.vars ++ [] at hv
    rwa [List.append_nil] at hv

/-- What is put in for a tuple mentions only what the first points mention. -/
theorem vars_points {ks : List Int} {x : Var} (h : ∀ c ∈ cs, x ∉ c.first.vars) :
    ∀ p ∈ points cs ks, x ∉ p.2.vars := by
  induction cs generalizing ks with
  | nil => exact fun _ hp => absurd hp List.not_mem_nil
  | cons c cs ih =>
    cases ks with
    | nil => exact fun _ hp => absurd hp List.not_mem_nil
    | cons k ks =>
      obtain ⟨hc, hcs⟩ := List.forall_mem_cons.1 h
      exact List.forall_mem_cons.2 ⟨fun hx => hc (vars_point c k x hx), ih hcs⟩

/-- The literal point is the exact sum. -/
theorem point_literal_of_fits (h : c.Fits k) {b : Word} (hb : c.first = .int b) :
    ∃ n : Word, c.point k = .int n ∧ n.toInt = b.toInt + k * c.step.toInt :=
  ⟨_, point_of_literal hb, Word.toInt_ofInt_of_fits (h.2 b hb)⟩

/-- Any other point is the first one with the exact distance added. -/
theorem point_sum_of_fits (h : c.Fits k) (hfirst : ∀ b : Word, c.first ≠ .int b) :
    ∃ d : Word, c.point k = c.first + .int d ∧ d.toInt = k * c.step.toInt :=
  ⟨_, point_of_not_literal hfirst, Word.toInt_ofInt_of_fits h.1⟩

/-- **Copies of copies are instances of the body**, one for each tuple, with all points of the tuple
put in at once. The induction is on the indices: the outermost is expanded last, and its point is
put into instances that no longer hold the inner indices. -/
theorem statements_foldrM (hfits : ∀ c ∈ cs, ∀ k, 0 ≤ k → k < c.extent.toInt → c.Fits k)
    (hpos : ∀ c ∈ cs, 1 ≤ c.extent.toInt) (hfirst : cs.Pairwise fun c d => c.var ∉ d.first.vars)
    {body u : Block} (hu : cs.foldrM (fun c b => c.expand b) body = .ok u) :
    u.statements = (Layout.cells (extents cs)).flatMap
      fun ks => (body.subst (points cs ks)).statements := by
  induction cs generalizing u with
  | nil =>
    obtain rfl := Except.ok.inj hu
    rw [extents, List.map_nil, Layout.cells, List.flatMap_singleton]
    exact congrArg Block.statements (Block.subst_nil _).symm
  | cons c cs ih =>
    obtain ⟨hc, hcs⟩ := List.forall_mem_cons.1 hfits
    obtain ⟨hcpos, hcspos⟩ := List.forall_mem_cons.1 hpos
    obtain ⟨hcfirst, hcsfirst⟩ := List.pairwise_cons.1 hfirst
    rw [List.foldrM_cons, bind_eq_ok_iff] at hu
    obtain ⟨b, hb, hu⟩ := hu
    have hinstance : ∀ (k : Nat) (ks : List Int),
        (body.subst (points cs ks)).statements.map (Block.subst [(c.var, c.point k)]) =
          (body.subst (points (c :: cs) (k :: ks))).statements := fun k ks => by
      rw [Block.subst, ← Block.statements_mapExprs, ← Block.subst,
        Block.subst_subst (vars_points hcfirst)]
      rfl
    rw [Block.statements_expand hc hcpos hu, ih hcs hcspos hcsfirst hb]
    simp only [extents, List.map_cons, Layout.cells, List.flatMap_assoc, List.map_flatMap,
      List.flatMap_map, hinstance]

end Copies

/-- Checked ranges are those that were given. -/
theorem LoopIndex.eq_of_mapM_copies {is : List LoopIndex} {cs plan : List Copies}
    (his : List.Forall₂ (fun i c => i.var = c.var ∧ i.range = c.range) is cs)
    (h : is.mapM copies = .ok plan) : plan = cs := by
  have hplan := forall₂_of_mapM_eq_ok h
  clear h
  induction his generalizing plan with
  | nil =>
    cases hplan
    rfl
  | @cons i c is cs hi _ ih =>
    cases hplan with
    | @cons _ d _ plan hd hplan =>
      obtain ⟨hvar, hfirst, hextent, hstep⟩ := copies_eq_ok hd
      rw [hi.1] at hvar
      rw [hi.2] at hfirst hextent hstep
      have hcd : d = c := by
        cases c
        cases d
        simp_all [Copies.range]
      rw [hcd, ih hplan]

/-- **Unrolled copies in row-major order.** Let the ranges of several indices have literal extents
of at least one and literal steps, and let no first value mention an index. Where writing the loops
out succeeds, the statements of the result are those of the instances of the body, one instance for
each tuple of numbers below the extents, in lexicographic order, with the points of the tuple put in
at once. A point is a literal if the first one is, and the first one plus a literal distance
otherwise, and no word wraps. -/
theorem statements_unroll {is : List LoopIndex} {cs : List Copies}
    (his : List.Forall₂ (fun i c => i.var = c.var ∧ i.range = c.range) is cs)
    (hpos : ∀ c ∈ cs, 1 ≤ c.extent.toInt) (hfirst : ∀ c ∈ cs, ∀ d ∈ cs, c.var ∉ d.first.vars)
    {body u : Block} (hu : Block.unroll is body = .ok u) :
    u.statements = (Layout.cells (Copies.extents cs)).flatMap
        (fun ks => (body.subst (Copies.points cs ks)).statements) ∧
      (∀ ks, ks ∈ Layout.cells (Copies.extents cs) ↔ Layout.Inside (Copies.extents cs) ks) ∧
      (Layout.cells (Copies.extents cs)).Pairwise (· < ·) ∧
      ((Layout.cells (Copies.extents cs)).length : Int) = (Copies.extents cs).prod ∧
      (u.statements.length : Int) = (Copies.extents cs).prod * body.statements.length ∧
      ∀ c ∈ cs, ∀ k, 0 ≤ k → k < c.extent.toInt →
        (∀ b : Word, c.first = .int b →
          ∃ n : Word, c.point k = .int n ∧ n.toInt = b.toInt + k * c.step.toInt) ∧
        ((∀ b : Word, c.first ≠ .int b) →
          ∃ d : Word, c.point k = c.first + .int d ∧ d.toInt = k * c.step.toInt) := by
  obtain ⟨plan, hplan, hu⟩ := bind_eq_ok_iff.1 hu
  obtain rfl := LoopIndex.eq_of_mapM_copies his hplan
  have hfits := LoopIndex.fits_of_mapM_copies hplan
  have hstatements := Copies.statements_foldrM hfits hpos
    (List.pairwise_of_forall_mem_list hfirst) hu
  have hlength : ((Layout.cells (Copies.extents plan)).length : Int) =
      (Copies.extents plan).prod :=
    Layout.length_cells (List.forall_mem_map.2 fun c hc => hpos c hc)
  have hcopies : ∀ ks, (body.subst (Copies.points plan ks)).statements.length =
      body.statements.length := fun ks => by
    rw [Block.subst, Block.statements_mapExprs, List.length_map]
  refine ⟨hstatements, fun ks => Layout.mem_cells_iff, Layout.pairwise_cells _, hlength, ?_,
    fun c hc k h0 hk => ⟨fun b hb => Copies.point_literal_of_fits (hfits c hc k h0 hk) hb,
      fun hb => Copies.point_sum_of_fits (hfits c hc k h0 hk) hb⟩⟩
  rw [hstatements, List.length_flatMap, ← hlength]
  simp only [hcopies, List.map_const', List.sum_replicate_nat, Nat.cast_mul]

/-- The ranges of `stairIndices`. -/
def stairCopies : List Copies :=
  [⟨⟨0, "i", .int32⟩, .int 1, 2, 2⟩, ⟨⟨1, "j", .int32⟩, .var ⟨2, "n", .int32⟩, 2, -1⟩]

theorem statements_unroll_stair : ∃ u, Block.unroll stairIndices stairBody = .ok u ∧
    u.statements = [[0, 0], [0, 1], [1, 0], [1, 1]].flatMap
      (fun ks => (stairBody.subst (Copies.points stairCopies ks)).statements) ∧
    u.statements.length = 4 := by
  obtain ⟨u, hu⟩ : ∃ u, Block.unroll stairIndices stairBody = .ok u := ⟨_, rfl⟩
  have his : List.Forall₂ (fun i c => i.var = c.var ∧ i.range = c.range) stairIndices stairCopies :=
    .cons ⟨rfl, rfl⟩ (.cons ⟨rfl, rfl⟩ .nil)
  obtain ⟨hstatements, -, -, -, hlength, -⟩ :=
    statements_unroll his (by decide) (by decide) hu
  exact ⟨u, hu, hstatements, Int.ofNat_inj.1 hlength⟩

end LoopNest
