import LoopNest.Proofs.Acceptance
import LoopNest.Proofs.Instances

/-!
# Normal forms of folding

Folding goes through an expression once, from the leaves to the root. What it makes of an operator
is an operand of the next one, so a rewrite could uncover another. But an identity gives back an
operand that is folded already, and the result of literals holds no operator, so one pass leaves
nothing to fold.

* `Expr.Redex`: an operator that can be folded;
* `Expr.Normal`: no operator in the expression can be folded;
* **`Expr.foldOperation_eq_binary_iff`**: an operator is left alone exactly if it cannot be folded;
* **`Expr.fold_eq_self_iff`**: the expressions that folding leaves alone are the normal ones;
* **`fold_idempotent`**: folded expressions and blocks are normal.
-/

namespace LoopNest

theorem Word.floorDiv?_one (m : Word) : floorDiv? m 1 = some m := by
  have hquot : quot? m 1 = some m := by
    rw [quot?, if_neg (by decide), Int64.toInt_one, Int.tdiv_one, ofInt?_toInt]
  have hmod : m % 1 = 0 := by
    rw [← Int64.toInt_inj, Int64.toInt_mod, Int64.toInt_one, Int.tmod_one, Int64.toInt_zero]
  rw [floorDiv?, hquot, Option.bind_eq_bind, Option.bind_some, if_neg fun h => h.1 hmod]

namespace Expr

/-! ## What can be folded -/

/-- An operator that can be folded: arithmetic on literals that has a result, or an identity between
operands of integer type. -/
inductive Redex : Operator → Expr → Expr → Prop where
  | literals {op : Operator} {m n r : Word} (h : op.fold? m n = some r) : Redex op (int m) (int n)
  | identity {op : Operator} {a b e : Expr} (ha : a.type.isInt = true) (hb : b.type.isInt = true)
    (h : Identity op a b e) : Redex op a b

/-- No operator in the expression can be folded. -/
inductive Normal : Expr → Prop where
  | int (n : Word) : Normal (int n)
  | float (x : Binary64) : Normal (float x)
  | str (s : String) : Normal (str s)
  | var (v : Var) : Normal (var v)
  | binary {op : Operator} {a b : Expr} (ha : Normal a) (hb : Normal b) (h : ¬Redex op a b) :
    Normal (binary op a b)
  | cast (t : ElemType) {a : Expr} (ha : Normal a) : Normal (cast t a)
  | load (v : Var) {is : List Expr} (h : ∀ i ∈ is, Normal i) : Normal (load v is)
  | call (t : ElemType) (f : String) {as : List Expr} (h : ∀ a ∈ as, Normal a) :
    Normal (call t f as)

section

variable {op : Operator} {a b e : Expr} {m n : Word}

/-! ## Folding one operator -/

/-- An identity between two literals is their arithmetic. -/
theorem fold?_of_identity (h : Identity op (int m) (int n) e) :
    ∃ r, op.fold? m n = some r ∧ int r = e := by
  cases h with
  | zero_add =>
    refine ⟨n, ?_, rfl⟩
    rw [Operator.fold?, Word.add?, Int64.toInt_zero, zero_add, Word.ofInt?_toInt]
  | add_zero =>
    refine ⟨m, ?_, rfl⟩
    rw [Operator.fold?, Word.add?, Int64.toInt_zero, add_zero, Word.ofInt?_toInt]
  | sub_zero =>
    refine ⟨m, ?_, rfl⟩
    rw [Operator.fold?, Word.sub?, Int64.toInt_zero, sub_zero, Word.ofInt?_toInt]
  | one_mul =>
    refine ⟨n, ?_, rfl⟩
    rw [Operator.fold?, Word.mul?, Int64.toInt_one, one_mul, Word.ofInt?_toInt]
  | mul_one =>
    refine ⟨m, ?_, rfl⟩
    rw [Operator.fold?, Word.mul?, Int64.toInt_one, mul_one, Word.ofInt?_toInt]
  | floorDiv_one => exact ⟨m, Word.floorDiv?_one m, rfl⟩
  | zero_mul =>
    refine ⟨0, ?_, rfl⟩
    rw [Operator.fold?, Word.mul?, Int64.toInt_zero, zero_mul, ← Int64.toInt_zero,
      Word.ofInt?_toInt]
  | mul_zero =>
    refine ⟨0, ?_, rfl⟩
    rw [Operator.fold?, Word.mul?, Int64.toInt_zero, mul_zero, ← Int64.toInt_zero,
      Word.ofInt?_toInt]

/-- Where an operand is no literal, an identity is applied. -/
theorem foldIdentity_of_identity (ha : a.type.isInt = true) (hb : b.type.isInt = true)
    (hlit : a.literal? = none ∨ b.literal? = none) (h : Identity op a b e) :
    foldIdentity op a b = e := by
  have hint : ∀ {k : Word}, (int k).literal? ≠ none := fun h => nomatch h
  unfold foldIdentity
  rw [if_pos (by rw [ha, hb]; rfl)]
  cases h with
  | zero_add | one_mul => rfl
  | add_zero | sub_zero | mul_one | floorDiv_one =>
    rw [hlit.resolve_right hint]
    rfl
  | zero_mul heff =>
    rw [hlit.resolve_left hint, heff]
    rfl
  | mul_zero heff =>
    rw [hlit.resolve_right hint, heff]
    rfl

theorem foldOperation_of_fold? {r : Word} (h : op.fold? m n = some r) :
    foldOperation op (int m) (int n) = int r := by
  simp only [foldOperation, literal?, h]

theorem foldOperation_of_not_literal (h : a.literal? = none ∨ b.literal? = none) :
    foldOperation op a b = foldIdentity op a b := by
  unfold foldOperation
  split
  · next hm hn => rcases h with h | h <;> simp_all
  · rfl

/-- **Every identity between operands of integer type is applied.** -/
theorem foldOperation_of_identity (ha : a.type.isInt = true) (hb : b.type.isInt = true)
    (h : Identity op a b e) : foldOperation op a b = e := by
  by_cases hlit : a.literal? = none ∨ b.literal? = none
  · rw [foldOperation_of_not_literal hlit, foldIdentity_of_identity ha hb hlit h]
  · obtain ⟨⟨m, hm⟩, n, hn⟩ : (∃ m, a.literal? = some m) ∧ ∃ n, b.literal? = some n := by
      simpa [Option.ne_none_iff_exists'] using hlit
    obtain rfl := literal?_eq_some_iff.1 hm
    obtain rfl := literal?_eq_some_iff.1 hn
    obtain ⟨r, hr, rfl⟩ := fold?_of_identity h
    exact foldOperation_of_fold? hr

/-- **An operator is left alone exactly if it cannot be folded.** -/
theorem foldOperation_eq_binary_iff : foldOperation op a b = binary op a b ↔ ¬Redex op a b := by
  constructor
  · intro heq h
    cases h with
    | literals h => exact nomatch (foldOperation_of_fold? h).symm.trans heq
    | identity ha hb hid =>
      -- an operand is smaller than the operator, and zero is none
      rw [foldOperation_of_identity ha hb hid] at heq
      rcases hid.mem with rfl | rfl | rfl
      · cases heq
      · cases heq
      · cases heq
  · intro h
    have hfolded := folded_foldOperation op a b
    generalize foldOperation op a b = e at hfolded
    cases hfolded with
    | node => rfl
    | literal hm hn hr =>
      subst hm hn
      exact absurd (.literals hr) h
    | identity ha hb hid => exact absurd (.identity ha hb hid) h

/-! ## Folded expressions -/

/-- A normal expression stays as it is. -/
theorem Normal.fold_eq (h : e.Normal) : e.fold = e := by
  induction h with
  | int | float | str | var => rfl
  | binary _ _ h iha ihb => rw [fold_binary, iha, ihb, foldOperation_eq_binary_iff.2 h]
  | cast t _ iha => rw [fold_cast, iha]
  | load v _ ih => rw [fold_load, List.map_congr_left ih, List.map_id']
  | call t f _ ih => rw [fold_call, List.map_congr_left ih, List.map_id']

/-- **Nothing is left to fold.** -/
theorem normal_fold (e : Expr) : e.fold.Normal := by
  induction e using inductionOn with
  | int n => exact .int n
  | float x => exact .float x
  | str s => exact .str s
  | var v => exact .var v
  | binary op a b iha ihb =>
    have hfolded := folded_foldOperation op a.fold b.fold
    rw [fold_binary]
    generalize he : foldOperation op a.fold b.fold = e at hfolded
    cases hfolded with
    | node => exact .binary iha ihb (foldOperation_eq_binary_iff.1 he)
    | literal => exact .int _
    | identity _ _ hid =>
      obtain rfl | rfl | rfl := hid.mem
      · exact iha
      · exact ihb
      · exact .int 0
  | cast t a iha => exact .cast t iha
  | load v is ih =>
    rw [fold_load]
    exact .load v (List.forall_mem_map.2 ih)
  | call t f as ih =>
    rw [fold_call]
    exact .call t f (List.forall_mem_map.2 ih)

/-- **Folding leaves alone the normal expressions** and no others. -/
theorem fold_eq_self_iff : e.fold = e ↔ e.Normal :=
  ⟨fun h => h ▸ normal_fold e, Normal.fold_eq⟩

end

end Expr

/-! ## Folded blocks -/

namespace Block

theorem exprs_mapExprs (f : Expr → Expr) (b : Block) : (b.mapExprs f).exprs = b.exprs.map f := by
  induction b with
  | seq a b iha ihb => rw [mapExprs, exprs, iha, ihb, exprs, List.map_append]
  | loop k i body ih => rw [mapExprs, exprs, ih]; rfl
  | alloc v shape storage body ih => rw [mapExprs, exprs, ih, exprs, List.map_append]
  | bind bs body ih =>
    rw [mapExprs, exprs, ih, exprs, List.map_append, List.map_map, List.map_map]
    rfl
  | eval e => rfl
  | store v is e => rw [mapExprs, exprs, exprs, List.map_append]; rfl

/-- **Folding a folded block changes nothing.** -/
theorem fold_fold (b : Block) : b.fold.fold = b.fold := by
  rw [fold, mapExprs_mapExprs]
  exact congrArg b.mapExprs (funext Expr.fold_fold)

end Block

/-- **One pass folds everything.** Folding a folded expression or block changes nothing, and no
operator in it can be folded: there is no arithmetic on literals that has a result, and no identity
between operands of integer type. What can be folded is just what the pass rewrites. -/
theorem fold_idempotent :
    (∀ e : Expr, e.fold.fold = e.fold ∧ e.fold.Normal) ∧
    (∀ b : Block, b.fold.fold = b.fold ∧ ∀ e ∈ b.fold.exprs, e.Normal) ∧
    ∀ e : Expr, e.fold = e ↔ e.Normal := by
  refine ⟨fun e => ⟨e.fold_fold, e.normal_fold⟩, fun b => ⟨b.fold_fold, ?_⟩,
    fun e => Expr.fold_eq_self_iff⟩
  rw [Block.fold, Block.exprs_mapExprs, List.forall_mem_map]
  exact fun e _ => e.normal_fold

end LoopNest
