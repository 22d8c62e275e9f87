import LoopNest.Proofs.Completeness
import LoopNest.Proofs.LiteralLayouts
import LoopNest.Proofs.UnrollChecks

/-!
# Unrolled fills enumerate a buffer

A loop over all positions of a buffer of literal shape, written out, is one store for each position.
The copies come in row-major order, so the flat offsets of the stores count up from zero.

* `Layout.cells`: the positions of a tensor in row-major order;
* **`Layout.map_rowMajor_cells`**: their offsets count up from zero;
* **`Block.unroll_store`**: the copies of a store at the indices of a loop;
* **`Block.flatten_statements`**: flattening a chain that declares no buffer;
* **`lower_fill`**: the kernel that allocates a buffer and fills it.
-/

namespace LoopNest

/-! ## Positions in row-major order -/

namespace Layout

/-- The positions of a tensor, the last index running fastest. -/
def cells : List Int → List (List Int)
  | [] => [[]]
  | d :: ds => (List.range d.toNat).flatMap fun k : Nat => (cells ds).map fun c => (k : Int) :: c

theorem inside_of_mem_cells {dims c : List Int} (h : c ∈ cells dims) : Inside dims c := by
  induction dims generalizing c with
  | nil =>
    obtain rfl := List.mem_singleton.1 h
    exact .nil
  | cons d ds ih =>
    obtain ⟨k, hk, hc⟩ := List.mem_flatMap.1 h
    obtain ⟨e, he, rfl⟩ := List.mem_map.1 hc
    have hk := List.mem_range.1 hk
    exact .cons (by omega) (ih he)

/-- Blocks of `n` numbers each, one after the other. -/
theorem range_mul (m n : Nat) :
    List.range (m * n) = (List.range m).flatMap fun k => (List.range n).map (k * n + ·) := by
  induction m with
  | zero => simp
  | succ m ih => rw [Nat.succ_mul, List.range_add, ih, List.range_succ, List.flatMap_append,
      List.flatMap_singleton]

/-- **The offsets of the positions count up from zero.** -/
theorem map_rowMajor_cells {dims : List Int} (hpos : ∀ d ∈ dims, 0 < d) :
    (cells dims).map (rowMajor dims) = (List.range dims.prod.toNat).map Nat.cast := by
  induction dims with
  | nil => rfl
  | cons d ds ih =>
    obtain ⟨hd, hds⟩ := List.forall_mem_cons.1 hpos
    have hp : 0 < ds.prod := prod_pos_of_forall hds
    have hrow : ∀ k : Nat, ((cells ds).map fun c => (k : Int) :: c).map (rowMajor (d :: ds)) =
        ((List.range ds.prod.toNat).map (k * ds.prod.toNat + ·)).map Nat.cast := fun k => by
      calc ((cells ds).map fun c => (k : Int) :: c).map (rowMajor (d :: ds))
          = ((cells ds).map (rowMajor ds)).map (k * ds.prod + ·) := by
            rw [List.map_map, List.map_map]
            rfl
        _ = (List.range ds.prod.toNat).map fun j : Nat => k * ds.prod + (j : Int) := by
            rw [ih hds, List.map_map]
            rfl
        _ = _ := by
            rw [List.map_map]
            refine List.map_congr_left fun j _ => ?_
            simp only [Function.comp_apply, Nat.cast_add, Nat.cast_mul, Int.toNat_of_nonneg hp.le]
    rw [List.prod_cons, Int.toNat_mul hd.le hp.le, range_mul, cells, List.map_flatMap,
      List.map_flatMap]
    simp only [hrow]

/-- A position as literal indices. -/
def literals (c : List Int) : List Expr := c.map fun k => .int (Int64.ofInt k)

theorem folds_literals {dims : List Word} {c : List Int}
    (h : Inside (dims.map Int64.toInt) c) : List.Forall₂ Expr.Folds (literals c) c := by
  induction dims generalizing c with
  | nil =>
    cases h
    exact .nil
  | cons d dims ih =>
    obtain _ | ⟨hk, h⟩ := h
    obtain ⟨w, -, rfl⟩ := Word.exists_ofInt? hk.1 hk.2.le
    refine .cons ?_ (ih h)
    change (Expr.int (Int64.ofInt w.toInt)).Folds w.toInt
    rw [Int64.ofInt_toInt]
    exact .literal w

end Layout

/-! ## Passes over literals and over chains -/

/-- A literal stays in every pass. -/
theorem Expr.passes_of_isLiteral {e : Expr} (h : e.isLiteral = true) :
    (∀ σ, e.subst σ = e) ∧ (∀ T, e.flatten T = e) ∧ e.fold = e := by
  cases e with
  | int _ | float _ | str _ => exact ⟨fun _ => rfl, fun _ => rfl, rfl⟩
  | var _ | binary _ _ _ | cast _ _ | load _ _ | call _ _ _ => exact nomatch h

namespace Block

/-- The stores of a block are those of its statements, in order. -/
theorem stores_eq_flatMap_statements (b : Block) : b.stores = b.statements.flatMap stores := by
  induction b with
  | seq a b iha ihb => rw [stores, iha, ihb, statements, List.flatMap_append]
  | loop _ _ _ _ | alloc _ _ _ _ _ | bind _ _ _ | eval _ | store _ _ _ =>
    exact (List.flatMap_singleton _ _).symm

/-- **A chain whose statements add nothing to the table** is flattened statement by statement. -/
theorem flatten_statements {b : Block} {T : Shapes} (h : ∀ s ∈ b.statements, s.declare T = T) :
    b.declare T = T ∧ (b.flatten T).statements = b.statements.map (flatten T) := by
  induction b with
  | seq a b iha ihb =>
    obtain ⟨ha, hb⟩ := List.forall_mem_append.1 h
    obtain ⟨hda, hsa⟩ := iha ha
    obtain ⟨hdb, hsb⟩ := ihb hb
    refine ⟨by rw [declare, hda, hdb], ?_⟩
    rw [flatten, hda, statements, hsa, hsb, statements, List.map_append]
  | loop _ _ _ _ | alloc _ _ _ _ _ | bind _ _ _ | eval _ | store _ _ _ =>
    exact ⟨h _ (List.mem_singleton.2 rfl), rfl⟩

end Block

/-! ## Writing out a store -/

/-- A range from zero in steps of one has words for its points. -/
theorem Copies.fits_upTo (v : Var) (d : Word) {k : Int} (h0 : 0 ≤ k) (hk : k ≤ d.toInt) :
    (⟨v, .int 0, d, 1⟩ : Copies).Fits k := by
  have hzero : Word.Fits 0 := by decide
  have hfits : Word.Fits (k * (1 : Word).toInt) := by
    rw [show (1 : Word).toInt = 1 from rfl, mul_one]
    exact hzero.of_between (Word.fits_toInt d) h0 hk
  refine ⟨hfits, fun b hb => ?_⟩
  obtain rfl := Expr.int.inj hb
  rw [Int64.toInt_zero, zero_add]
  exact hfits

theorem Copies.point_upTo (v : Var) (d : Word) (k : Int) :
    (⟨v, .int 0, d, 1⟩ : Copies).point k = .int (Int64.ofInt k) := by
  rw [point_of_literal rfl, Int64.toInt_zero, zero_add, show (1 : Word).toInt = 1 from rfl, mul_one]

theorem LoopIndex.copies_upTo {i : LoopIndex} {d : Word} (hrange : i.range = .upTo 0 d)
    (hd : 0 < d) : i.copies = .ok ⟨i.var, .int 0, d, 1⟩ := by
  have hneg : ¬d < 0 := Int64.not_lt.2 (Int64.le_of_lt hd)
  have hextent : i.range = ⟨.int 0, .int d, .int 1⟩ := by
    rw [hrange, Range.upTo, Int64.sub_zero, if_neg hneg]
  have hlast : (⟨i.var, .int 0, d, 1⟩ : Copies).offset (d.toInt - 1) = .ok _ :=
    Copies.offset_of_fits
      (Copies.fits_upTo i.var d (by have := Word.zero_lt_iff.1 hd; omega) (by omega))
  rw [copies, hextent]
  simp only [Range.literal?, Expr.literal?, Option.bind_eq_bind, Option.bind_some, if_neg hneg,
    if_pos hd, hlast]
  rfl

namespace Block

/-- Several indices are expanded from the last to the first. -/
theorem unroll_cons_of_ok {i : LoopIndex} {is : List LoopIndex} {body b u : Block} {c : Copies}
    (hc : i.copies = .ok c) (hb : unroll is body = .ok b) (hu : c.expand b = .ok u) :
    unroll (i :: is) body = .ok u := by
  obtain ⟨cs, hcs, hb⟩ := bind_eq_ok_iff.1 hb
  refine bind_eq_ok_iff.2 ⟨c :: cs, ?_, ?_⟩
  · rw [List.mapM_cons, hc, hcs]
    rfl
  · rw [List.foldrM_cons, hb]
    exact hu

/-- **The copies of a store at the indices of a loop** are stores at the positions in row-major
order. Further indices before these stay. -/
theorem unroll_store {is : List LoopIndex} {dims : List Word}
    (hranges : is.map LoopIndex.range = dims.map (Range.upTo 0)) (hpos : ∀ d ∈ dims, 0 < d)
    {us : List Var} (hdistinct : (us ++ is.map LoopIndex.var).Nodup) (v : Var) {x : Expr}
    (hx : x.isLiteral = true) : ∃ u,
    unroll is (.store v ((us ++ is.map LoopIndex.var).map .var) x) = .ok u ∧
      u.statements = (Layout.cells (dims.map Int64.toInt)).map fun c =>
        .store v (us.map .var ++ Layout.literals c) x := by
  induction is generalizing dims us with
  | nil =>
    obtain rfl := List.map_eq_nil_iff.1 hranges.symm
    exact ⟨_, rfl, by simp [Layout.cells, Layout.literals, statements]⟩
  | cons i is ih =>
    cases dims with
    | nil => cases hranges
    | cons d dims =>
      obtain ⟨hi, his⟩ := List.cons.inj hranges
      obtain ⟨hd, hds⟩ := List.forall_mem_cons.1 hpos
      have happend : us ++ (i :: is).map LoopIndex.var =
          (us ++ [i.var]) ++ is.map LoopIndex.var := by simp
      rw [happend] at hdistinct ⊢
      obtain ⟨b, hb, hbs⟩ := ih his hds hdistinct
      have hfits : ∀ k, 0 ≤ k → k < d.toInt → (⟨i.var, .int 0, d, 1⟩ : Copies).Fits k :=
        fun k h0 hk => Copies.fits_upTo i.var d h0 hk.le
      obtain ⟨u, hu⟩ : ∃ u, (⟨i.var, .int 0, d, 1⟩ : Copies).expand b = .ok u :=
        ⟨_, Copies.expand_of_fits hfits b⟩
      have hus := statements_expand hfits (Word.zero_lt_iff.1 hd) hu
      simp only [Copies.point_upTo] at hus
      refine ⟨u, unroll_cons_of_ok (LoopIndex.copies_upTo hi hd) hb hu, ?_⟩
      -- the index itself becomes the point, what stands before and after it stays
      have hfresh : i.var ∉ us := by
        have hdisjoint := List.disjoint_of_nodup_append (List.Nodup.of_append_left hdistinct)
        exact fun h => hdisjoint h (List.mem_singleton.2 rfl)
      have hcopy : ∀ (k : Nat) (c : List Int),
          subst [(i.var, .int (Int64.ofInt k))]
            (.store v ((us ++ [i.var]).map .var ++ Layout.literals c) x) =
          .store v (us.map .var ++ Layout.literals ((k : Int) :: c)) x := by
        intro k c
        have hus : (us.map Expr.var).map (Expr.subst [(i.var, .int (Int64.ofInt k))]) =
            us.map Expr.var := by
          rw [List.map_map]
          refine List.map_congr_left fun w hw => ?_
          exact (Expr.subst_var w).trans (if_neg fun h : i.var = w => hfresh (h ▸ hw))
        have hc : (Layout.literals c).map (Expr.subst [(i.var, .int (Int64.ofInt k))]) =
            Layout.literals c := by
          rw [Layout.literals, List.map_map]
          rfl
        have hi : (Expr.var i.var).subst [(i.var, .int (Int64.ofInt k))] =
            .int (Int64.ofInt k) := (Expr.subst_var i.var).trans (if_pos rfl)
        rw [subst, mapExprs, (Expr.passes_of_isLiteral hx).1, List.map_append, hc, List.map_append,
          List.map_append, hus, List.map_singleton, List.map_singleton, hi, List.append_assoc]
        rfl
      rw [hus, hbs, List.map_cons, Layout.cells, List.map_flatMap]
      simp only [List.map_map, Function.comp_def, hcopy]

end Block
/-! ## Flattening the stores -/

/-- The indices of a position in a buffer of literal shape become its offset. -/
theorem Shapes.flatIndices_literals (v : Var) (T : Shapes) {dims : List Word} {N : Word}
    (hne : dims ≠ []) (hN : (dims.map Int64.toInt).prod ≤ N.toInt) {c : List Int}
    (hin : Layout.Inside (dims.map Int64.toInt) c) :
    (Block.addShape v (dims.map .int) T).flatIndices v (Layout.literals c) =
      [.int (Int64.ofInt (Layout.rowMajor (dims.map Int64.toInt) c))] := by
  have hlen : (dims.map Expr.int).length = (Layout.literals c).length := by
    rw [Layout.literals, List.length_map, List.length_map, ← hin.length_eq, List.length_map]
  by_cases hrank : 1 < (dims.map Expr.int).length
  · have hfind : Shapes.find? ((v, dims.map .int) :: T) v = some (dims.map .int) := by
      rw [find?, List.find?_cons_of_pos (by simp)]
      rfl
    rw [Block.addShape, if_pos hrank, flatIndices, if_neg (by omega), hfind]
    simp only [hlen, if_true]
    rw [Layout.offset_eq_literal (Expr.Folds.literals dims) (Layout.folds_literals hin) hin hN]
  · -- one dimension is left as it is
    rw [List.length_map] at hrank
    obtain ⟨d, rfl⟩ : ∃ d, dims = [d] :=
      List.length_eq_one_iff.1 (by have := List.length_pos_iff.2 hne; omega)
    obtain _ | ⟨hk, _ | _⟩ := hin
    rw [flatIndices, if_pos (by rw [← hlen]; exact Nat.one_lt_two)]
    simp [Layout.literals, Layout.rowMajor]

namespace Block

variable {v : Var} {dims : List Word} {N : Word} {x : Expr}

/-- A buffer of literal shape, filled in row-major order, is flattened to one that is filled from
the first element to the last. -/
theorem apply_alloc_stores (hne : dims ≠ []) (hpos : ∀ d ∈ dims, 0 < d)
    (hN : (dims.map Int64.toInt).prod = N.toInt) (hx : x.isLiteral = true) {u : Block}
    (hu : u.statements = (Layout.cells (dims.map Int64.toInt)).map fun c =>
      .store v (Layout.literals c) x) (views : List View) (storage : String) :
    ∃ w, Options.standard.apply views (.alloc v (dims.map .int) storage u) =
        .alloc v [.int N] storage w ∧
      w.statements = (List.range N.toInt.toNat).map fun j : Nat =>
        .store v [.int (Int64.ofInt j)] x := by
  obtain ⟨T, hT⟩ : ∃ T, T = addShape v (dims.map .int) (View.shapes views) := ⟨_, rfl⟩
  have hposs : ∀ d ∈ dims.map Int64.toInt, 0 < d :=
    List.forall_mem_map.2 fun d hd => Int64.lt_iff_toInt_lt.1 (hpos d hd)
  refine ⟨(u.flatten T).fold, ?_, ?_⟩
  · have hshape : (if 1 < (dims.map Expr.int).length then [Layout.count (dims.map .int)]
        else (dims.map .int).map (Expr.flatten (View.shapes views))) = [.int N] := by
      split
      · rw [Layout.count_eq_literal (Expr.Folds.literals dims) hposs hN.le, hN, Int64.ofInt_toInt]
      · next hrank =>
        rw [List.length_map] at hrank
        obtain ⟨d, rfl⟩ : ∃ d, dims = [d] :=
          List.length_eq_one_iff.1 (by have := List.length_pos_iff.2 hne; omega)
        have hd : d = N := Int64.toInt_inj.1 (by simpa using hN)
        rw [hd]
        rfl
    rw [Options.apply, Options.standard, if_pos rfl, if_pos rfl, flattenViews, flatten, hshape,
      ← hT]
    rfl
  · have hdeclare : ∀ s ∈ u.statements, s.declare T = T := by
      rw [hu]
      exact List.forall_mem_map.2 fun _ _ => rfl
    have hstore : ∀ c ∈ Layout.cells (dims.map Int64.toInt),
        ((store v (Layout.literals c) x).flatten T).fold =
          .store v [.int (Int64.ofInt (Layout.rowMajor (dims.map Int64.toInt) c))] x := by
      intro c hc
      have hin := Layout.inside_of_mem_cells hc
      have hliterals : (Layout.literals c).map (Expr.flatten T) = Layout.literals c := by
        rw [Layout.literals, List.map_map]
        rfl
      rw [flatten, hliterals, (Expr.passes_of_isLiteral hx).2.1, hT,
        Shapes.flatIndices_literals v _ hne hN.le hin, fold, mapExprs,
        (Expr.passes_of_isLiteral hx).2.2]
      rfl
    calc ((u.flatten T).fold).statements
        = (u.statements.map (flatten T)).map fold := by
          rw [fold, statements_mapExprs, (flatten_statements hdeclare).2]
      _ = (Layout.cells (dims.map Int64.toInt)).map fun c =>
            .store v [.int (Int64.ofInt (Layout.rowMajor (dims.map Int64.toInt) c))] x := by
          rw [hu, List.map_map, List.map_map]
          exact List.map_congr_left hstore
      _ = ((Layout.cells (dims.map Int64.toInt)).map
            (Layout.rowMajor (dims.map Int64.toInt))).map fun j =>
              .store v [.int (Int64.ofInt j)] x := by
          rw [List.map_map]
          rfl
      _ = _ := by
          rw [Layout.map_rowMajor_cells hposs, hN, List.map_map]
          rfl

end Block

/-! ## Kernels that fill a buffer -/

/-- A buffer of literal shape, to be filled with a constant by a loop over all its positions. -/
structure Fill where
  name : String
  type : ElemType
  storage : String
  dims : List Word
  /-- The names of the indices. -/
  indices : List String
  tags : Option (List String)
  value : Expr
deriving DecidableEq

namespace Fill

/-- The loop over the positions. -/
def decl (f : Fill) : LoopDecl := ⟨some f.indices, some (f.dims.map (Range.upTo 0)), f.tags⟩

/-- The kernel that allocates the buffer and stores the constant at the indices of one loop, which
is to be written out. -/
def kernel (f : Fill) (fresh : Nat) (signature : Signature) : Definition Id where
  fresh := fresh
  signature := signature
  options := .standard
  body _ _ := do
    let b ← Tracing.op fun t => t.allocate (f.dims.map .int) f.storage f.type f.name
    Tracing.forEach .unroll f.decl fun is =>
      Tracing.act fun t => t.store b (is.map fun i => .at (.var i)) f.value

theorem exists_parts {f : Fill} (hne : f.dims ≠ []) (hindices : f.indices.length = f.dims.length)
    (htags : ∀ ts ∈ f.tags, ts.length = f.dims.length) : ∃ parts, f.decl.check = .ok parts ∧
      parts.map Prod.fst = f.indices ∧ parts.map (fun p => p.2.1) = f.dims.map (Range.upTo 0) := by
  have hnames : f.indices ≠ [] := fun h => hne (List.eq_nil_of_length_eq_zero (by
    rw [← hindices, h]
    rfl))
  have hparts : ∀ rs : List (Range × String), rs.length = f.dims.length →
      rs.map Prod.fst = f.dims.map (Range.upTo 0) →
      (f.indices.zip rs).map Prod.fst = f.indices ∧
        (f.indices.zip rs).map (fun p => p.2.1) = f.dims.map (Range.upTo 0) := by
    intro rs hlen hrs
    refine ⟨List.map_fst_zip (by omega), ?_⟩
    calc (f.indices.zip rs).map (fun p => p.2.1)
        = ((f.indices.zip rs).map Prod.snd).map Prod.fst := by rw [List.map_map]; rfl
      _ = f.dims.map (Range.upTo 0) := by rw [List.map_snd_zip (by omega), hrs]
  rw [decl, LoopDecl.check]
  simp only [List.length_map, hindices, ne_eq, not_true_eq_false, if_false, List.isEmpty_iff,
    hnames]
  cases hts : f.tags with
  | none => exact ⟨_, rfl, hparts _ (by simp) (by simp)⟩
  | some ts =>
    have hlen := htags ts hts
    refine ⟨_, if_pos hlen, hparts _ (by simp [hlen]) (List.map_fst_zip (by simp [hlen]))⟩

theorem select_variables {v : Var} {shape : List Expr} {vs : List Var}
    (hlen : vs.length = shape.length) (storage : String) :
    (View.root v shape storage).select (vs.map fun i => .at (.var i)) =
      .ok (.element v (vs.map .var)) := by
  have hselectors : (vs.map fun i => Selector.at (.var i)) = (vs.map Expr.var).map Selector.at := by
    rw [List.map_map]
    rfl
  have hrank : (vs.map Expr.var).length = (View.root v shape storage).rank :=
    (List.length_map _).trans hlen
  rw [hselectors, View.select_at_eq_ok_iff hrank]
  refine ⟨?_, ?_, rfl⟩
  · refine List.forall₂_iff_get.2 ⟨hrank, fun i hi _ j n hj => ?_⟩
    rw [List.get_eq_getElem, List.getElem_map] at hj
    exact nomatch hj
  · rw [View.locate, if_neg (not_not.2 hrank), List.map_map]
    rfl

/-- The variable of the buffer, which is the first that is made. -/
def buffer (f : Fill) (fresh : Nat) : Var := ⟨fresh, f.name, f.type⟩

/-- The script that the kernel records. -/
def script (f : Fill) (fresh : Nat) {parts : List (String × Range × String)}
    (hparts : f.decl.check = .ok parts) (hlen : f.indices.length = f.dims.length) : Script :=
  .allocate (f.dims.map .int) f.storage f.type f.name
    (.loop .unroll f.decl parts hparts
      (.statement (.store (.root (f.buffer fresh) (f.dims.map .int) f.storage)
        ((Script.numbered (fresh + 1) f.indices).map fun i => .at (.var i)) f.value
        (f.buffer fresh) ((Script.numbered (fresh + 1) f.indices).map .var)
        (select_variables (by rw [Script.length_numbered, List.length_map, hlen]) f.storage))
        .done)
      .done)

section

variable {f : Fill} {fresh : Nat} {g : Signature} {parts : List (String × Range × String)}
  (hparts : f.decl.check = .ok parts) (hlen : f.indices.length = f.dims.length)
include hparts hlen

/-- The kernel leaves the trace of the script. -/
theorem recorded_kernel (hnames : parts.map Prod.fst = f.indices) {t : Trace}
    (hplay : (f.script fresh hparts hlen).play (f.kernel fresh g).start = .ok t) :
    (f.kernel fresh g).recorded = (.ok (), t) := by
  obtain ⟨-, hnumber⟩ := (f.kernel fresh g).tree_start
  obtain ⟨⟨⟨loop, vars⟩, u⟩, henter, hplay⟩ := bind_eq_ok_iff.1 hplay
  obtain ⟨w, hstore, hplay⟩ := bind_eq_ok_iff.1 hplay
  obtain ⟨x, hleave, hplay⟩ := bind_eq_ok_iff.1 hplay
  obtain rfl := Except.ok.inj hplay
  obtain ⟨v, hv, hstore⟩ := bind_eq_ok_iff.1 hstore
  obtain rfl := Except.ok.inj hstore
  have hvars : vars = Script.numbered (fresh + 1) f.indices := by
    rw [Script.enterLoop_eq hparts, hnames] at henter
    obtain ⟨hvars, -⟩ := Prod.mk.inj (Except.ok.inj henter)
    rw [← (Prod.mk.inj hvars).2]
    exact congrArg (fun n => Script.numbered (n + 1) f.indices) hnumber
  obtain ⟨r, hr⟩ : ∃ r,
      r = (f.kernel fresh g).start.allocate (f.dims.map .int) f.storage f.type f.name := ⟨_, rfl⟩
  have hview : r.1 = .root (f.buffer fresh) (f.dims.map .int) f.storage := by
    rw [hr]
    exact congrArg (fun n => View.root ⟨n, f.name, f.type⟩ (f.dims.map .int) f.storage) hnumber
  have hallocate : (Tracing.op (m := Id) fun t => t.allocate (f.dims.map .int) f.storage f.type
      f.name).run (f.kernel fresh g).start = (.ok r.1, r.2) := by
    rw [hr]
    rfl
  rw [← hr] at henter
  refine (Tracing.run_bind_of_ok hallocate _).trans (Tracing.run_forEach_of_ok henter ?_ hleave)
  rw [hview, hvars]
  exact Tracing.run_act_of_ok hv

/-- The script stands for the allocation around the copies of the store. -/
theorem reading_script (hnames : parts.map Prod.fst = f.indices)
    (hranges : parts.map (fun p => p.2.1) = f.dims.map (Range.upTo 0))
    (hpos : ∀ d ∈ f.dims, 0 < d) (hvalue : f.value.isLiteral = true) : ∃ u,
    (f.script fresh hparts hlen).reading fresh =
        .ok [.alloc (f.buffer fresh) (f.dims.map .int) f.storage u] ∧
      u.statements = (Layout.cells (f.dims.map Int64.toInt)).map fun c =>
        .store (f.buffer fresh) (Layout.literals c) f.value := by
  obtain ⟨hvars, hloops⟩ := Script.map_indices (fresh + 1) parts
  rw [hnames] at hvars
  rw [hranges] at hloops
  have hdistinct : ([] ++ (Script.indices (fresh + 1) parts).map LoopIndex.var).Nodup := by
    rw [List.nil_append, hvars]
    exact Script.nodup_numbered _ _
  obtain ⟨u, hu, hus⟩ := Block.unroll_store hloops hpos hdistinct (f.buffer fresh) hvalue
  rw [List.nil_append, hvars] at hu
  refine ⟨u, ?_, hus⟩
  have hloop : Script.loops .unroll (Script.indices (fresh + 1) parts) (Block.ofList
      [.store (f.buffer fresh) ((Script.numbered (fresh + 1) f.indices).map .var) f.value]) =
      .ok u := hu
  have hinside : (do
      let b ← Script.loops .unroll (Script.indices (fresh + 1) parts) (Block.ofList
        [.store (f.buffer fresh) ((Script.numbered (fresh + 1) f.indices).map .var) f.value])
      let bs ← Script.done.reading (fresh + 1 + parts.length)
      return b :: bs) = Except.ok [u] := by
    rw [hloop]
    rfl
  exact bind_eq_ok_iff.2 ⟨[u], hinside, rfl⟩

end

end Fill

/-- **Unrolled fills enumerate a buffer.** Take any literal shape with one dimension at least, all
positive, whose number of elements is a word. The kernel that allocates a buffer of this shape and
stores a constant at the indices of one loop over all its positions, which is written out, is
lowered, with both passes, to an allocation of that many elements. In it are stores to the
elements `0`, `1`, and so on up to the last one, in this order, and nothing else. -/
theorem lower_fill (f : Fill) (fresh : Nat) (g : Signature) {count : Word} (hne : f.dims ≠ [])
    (hpos : ∀ d ∈ f.dims, 0 < d) (hcount : (f.dims.map Int64.toInt).prod = count.toInt)
    (hindices : f.indices.length = f.dims.length)
    (htags : ∀ ts ∈ f.tags, ts.length = f.dims.length) (hvalue : f.value.isLiteral = true) :
    ∃ u, (f.kernel fresh g).lower =
        .ok ⟨g, .alloc (f.buffer fresh) [.int count] f.storage u, none⟩ ∧
      u.stores = (List.range count.toInt.toNat).map (fun j : Nat =>
        .store (f.buffer fresh) [.int (Int64.ofInt j)] f.value) ∧
      u.statements = u.stores := by
  obtain ⟨parts, hparts, hnames, hranges⟩ := Fill.exists_parts hne hindices htags
  obtain ⟨htree, -⟩ := (f.kernel fresh g).tree_start
  have hready : (f.kernel fresh g).start.tree.Ready := htree ▸ ScopeTree.ready_empty
  obtain ⟨bound, hplay⟩ := (f.script fresh hparts hindices).play_eq _ hready
  obtain ⟨u, hreading, hu⟩ := Fill.reading_script hparts hindices hnames hranges hpos hvalue
  have hblock := Definition.toBlock_of_play hplay
  have hb := (congrArg (· >>= ScopeForm.root.wrap) hreading)
  obtain ⟨w, hw, hws⟩ := Block.apply_alloc_stores hne hpos hcount hvalue hu
    (g.buffers.map Buffer.view) f.storage
  have hlower := Definition.lower_of_recorded (Fill.recorded_kernel hparts hindices hnames hplay)
    (hblock.trans hb)
  have hstores : w.stores = w.statements := by
    rw [Block.stores_eq_flatMap_statements, hws, List.flatMap_map]
    exact List.map_eq_flatMap.symm
  refine ⟨w, hlower.trans ?_, hstores.trans hws, hstores.symm⟩
  exact congrArg (fun b => Except.ok (Kernel.mk g b none)) hw

/-- Two sheets of one row and three columns, filled with ones. -/
def sheetsFill : Fill :=
  ⟨"t", .float32, "local", [2, 1, 3], ["i", "j", "k"], some ["z", "", "x"], .float .one⟩

theorem lower_fill_sheets : ∃ u, (sheetsFill.kernel 0 ⟨"fill", [], []⟩).lower =
      .ok ⟨⟨"fill", [], []⟩, .alloc ⟨0, "t", .float32⟩ [.int 6] "local" u, none⟩ ∧
    u.stores = [0, 1, 2, 3, 4, 5].map (fun j => .store ⟨0, "t", .float32⟩ [.int j] (.float .one)) ∧
    u.statements = u.stores := by
  have hpos : ∀ d ∈ sheetsFill.dims, 0 < d :=
    List.forall_mem_cons.2 ⟨by decide,
      List.forall_mem_cons.2 ⟨by decide, List.forall_mem_singleton.2 (by decide)⟩⟩
  exact lower_fill sheetsFill 0 ⟨"fill", [], []⟩ (by decide) hpos rfl rfl (by decide) rfl

end LoopNest
