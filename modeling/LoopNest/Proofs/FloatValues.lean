import LoopNest.Proofs.NormalForms
import LoopNest.Proofs.Renaming

/-!
# Floating-point values under folding

An operator on an integer and a floating-point number computes a floating-point number, whichever
side that is on, but its type is that of the left operand. So `i + x` for an integer `i` has a
floating-point value and an integer type: the type hides the number, and what asks for the types of
operands takes it for an integer.

* `Expr.isFloatValued`, `Expr.HidesFloat`: what an expression computes, and whether its type tells;
* **`Expr.hidesFloat_binary_iff`**: where a floating-point number is hidden;
* **`Expr.isFloatValued_of_fold`**, `Expr.HidesFloat.of_fold`: folding makes none, and hides none;
* **`float_arithmetic_kept`**: operators on floating-point values are left alone, except for those
  that are folded because a type hides one;
* **`hidden_float_lost`**: every floating-point value that an integer type hides can be folded away.
-/

namespace LoopNest

namespace Expr

/-! ## Floating-point values -/

/-- The value is a floating-point number. An operator other than a comparison computes one if either
operand is one. -/
def isFloatValued : Expr → Bool
  | int _ | str _ => false
  | float _ => true
  | var v | load v _ => v.type.isFloat
  | binary op a b => !op.compares && (a.isFloatValued || b.isFloatValued)
  | cast t _ | call t _ _ => t.isFloat

/-- The value is a floating-point number, and the type is not. -/
def HidesFloat (e : Expr) : Prop := e.isFloatValued = true ∧ e.type.isFloat = false

instance (e : Expr) : Decidable e.HidesFloat := inferInstanceAs (Decidable (_ ∧ _))

section

variable {op : Operator} {a b e : Expr}

theorem isFloatValued_binary_iff : (binary op a b).isFloatValued = true ↔
    op.compares = false ∧ (a.isFloatValued = true ∨ b.isFloatValued = true) := by
  rw [isFloatValued, Bool.and_eq_true, Bool.not_eq_true', Bool.or_eq_true]

/-- A floating-point type does not lie. -/
theorem isFloatValued_of_type (h : e.type.isFloat = true) : e.isFloatValued = true := by
  induction e using inductionOn with
  | int | str => exact nomatch h
  | float => rfl
  | var | cast | load | call => exact h
  | binary op a b iha =>
    cases hop : op.compares with
    | true => simp [type, hop, ElemType.isFloat] at h
    | false =>
      have ha : a.isFloatValued = true := iha (by simpa [type, hop] using h)
      exact isFloatValued_binary_iff.2 ⟨hop, .inl ha⟩

/-- **A floating-point number is hidden by operators only**: it is hidden in the left operand
already, or it is on the right of an operand that is none. -/
theorem hidesFloat_binary_iff : (binary op a b).HidesFloat ↔ op.compares = false ∧
    (a.HidesFloat ∨ a.isFloatValued = false ∧ b.isFloatValued = true) := by
  have ha : a.isFloatValued = false → a.type.isFloat = false := fun h => by
    simpa [h] using mt (isFloatValued_of_type (e := a))
  cases hop : op.compares with
  | true => simp [HidesFloat, isFloatValued, hop]
  | false =>
    cases hval : a.isFloatValued with
    | true => simp [HidesFloat, isFloatValued, type, hop, hval]
    | false => simp [HidesFloat, isFloatValued, type, hop, hval, ha hval]

end

/-! ## Folding -/

/-- **Folding makes no floating-point values**: what has one afterwards had one before. -/
theorem isFloatValued_of_fold {e : Expr} (h : e.fold.isFloatValued = true) :
    e.isFloatValued = true := by
  induction e using inductionOn with
  | int | float | str | var | cast => exact h
  | load v is => rwa [fold_load] at h
  | call t f as => rwa [fold_call] at h
  | binary op a b iha ihb =>
    have hnode : op.compares = false → a.fold.isFloatValued = true ∨ b.fold.isFloatValued = true →
        (binary op a b).isFloatValued = true :=
      fun hop hab => isFloatValued_binary_iff.2 ⟨hop, hab.imp iha ihb⟩
    have hfolded := folded_foldOperation op a.fold b.fold
    rw [fold_binary] at h
    generalize foldOperation op a.fold b.fold = e at hfolded h
    cases hfolded with
    | node =>
      obtain ⟨hop, hab⟩ := isFloatValued_binary_iff.1 h
      exact hnode hop hab
    | literal => exact nomatch h
    | identity _ _ hid =>
      obtain rfl | rfl | rfl := hid.mem
      · exact hnode hid.not_compares (.inl h)
      · exact hnode hid.not_compares (.inr h)
      · exact nomatch h

/-- Folding hides nothing that was not hidden before. -/
theorem HidesFloat.of_fold {e : Expr} (h : e.fold.HidesFloat) : e.HidesFloat :=
  ⟨isFloatValued_of_fold h.1, (type_class_fold e).2 ▸ h.2⟩

section

variable {op : Operator} {a b e : Expr}

theorem Folded.hasEffect (h : Folded op a b e) : e.hasEffect = (binary op a b).hasEffect := by
  cases h with
  | node => rfl
  | literal ha hb => rw [ha, hb]; rfl
  | identity _ _ hid =>
    cases hid with
    | zero_add | one_mul => rfl
    | add_zero | sub_zero | mul_one | floorDiv_one =>
      rw [Expr.hasEffect, Expr.hasEffect, Bool.or_false]
    | zero_mul heff | mul_zero heff => rw [Expr.hasEffect, Expr.hasEffect, heff]; rfl

end

/-- Folding neither drops all calls of an expression nor adds one. -/
theorem hasEffect_fold (e : Expr) : e.fold.hasEffect = e.hasEffect := by
  induction e using inductionOn with
  | int | float | str | var => rfl
  | binary op a b iha ihb =>
    rw [fold_binary, (folded_foldOperation op a.fold b.fold).hasEffect, hasEffect, hasEffect, iha,
      ihb]
  | cast t a iha => rw [fold_cast, hasEffect, hasEffect, iha]
  | load v is ih => rw [fold_load, hasEffect, hasEffect, anyEffect_map ih]
  | call t f as => rw [fold_call, hasEffect, hasEffect]

section

variable {op : Operator} {a b e l r : Expr}

/-- Only operators between integer types can be folded. -/
theorem Redex.types (h : Redex op a b) : a.type.isInt = true ∧ b.type.isInt = true := by
  cases h with
  | literals => exact ⟨rfl, rfl⟩
  | identity ha hb => exact ⟨ha, hb⟩

/-- What can be folded after its operands were has operands of integer type. -/
theorem Redex.types_of_fold (h : Redex op l.fold r.fold) :
    l.type.isInt = true ∧ r.type.isInt = true := by
  rw [← (type_class_fold l).1, ← (type_class_fold r).1]
  exact h.types

/-- **Between operands of integer type, every floating-point value is hidden.** -/
theorem hidesFloat_of_types (htypes : l.type.isInt = true ∧ r.type.isInt = true)
    (hfloat : l.isFloatValued = true ∨ r.isFloatValued = true) : l.HidesFloat ∨ r.HidesFloat :=
  hfloat.imp (⟨·, ElemType.not_isFloat_of_isInt htypes.1⟩)
    (⟨·, ElemType.not_isFloat_of_isInt htypes.2⟩)

end

end Expr

/-! ## Main statements -/

/-- **Operators on floating-point values are left alone.** No operator with such an operand, on
either side, is folded if neither type hides a number. With a hidden one, an operator is folded
exactly if both types are integer types and it could be folded between integers. -/
theorem float_arithmetic_kept (op : Operator) {l r : Expr}
    (hfloat : l.isFloatValued = true ∨ r.isFloatValued = true) :
    (¬l.HidesFloat ∧ ¬r.HidesFloat → (Expr.binary op l r).fold = .binary op l.fold r.fold) ∧
    ((Expr.binary op l r).fold ≠ .binary op l.fold r.fold ↔
      (l.HidesFloat ∨ r.HidesFloat) ∧ (l.type.isInt = true ∧ r.type.isInt = true) ∧
        Expr.Redex op l.fold r.fold) := by
  have hhides : Expr.Redex op l.fold r.fold → l.HidesFloat ∨ r.HidesFloat := fun h =>
    Expr.hidesFloat_of_types h.types_of_fold hfloat
  rw [Expr.fold_binary, Ne, Expr.foldOperation_eq_binary_iff, not_not]
  exact ⟨fun hshown h => not_or.2 hshown (hhides h),
    fun h => ⟨hhides h, h.types_of_fold, h⟩, fun h => h.2.2⟩

/-- An integer plus a floating-point number. -/
def mixedSum : Expr := .var ⟨0, "i", .int32⟩ + .var ⟨1, "x", .float32⟩

theorem float_arithmetic_kept_sum :
    (.int 0 * .var ⟨1, "x", .float32⟩ : Expr).fold = .int 0 * .var ⟨1, "x", .float32⟩ ∧
    (mixedSum.HidesFloat ∨ (Expr.int 0).HidesFloat) ∧ Expr.Redex .mul mixedSum (.int 0) := by
  refine ⟨(float_arithmetic_kept .mul (.inr (by decide))).1 (by decide), ?_⟩
  have hfolded : (mixedSum * .int 0).fold ≠ mixedSum.fold * (Expr.int 0).fold := by decide
  obtain ⟨hhides, -, hredex⟩ := (float_arithmetic_kept .mul (.inl (by decide))).2.1 hfolded
  exact ⟨hhides, hredex⟩

/-- **Not every operator on floating-point values is left alone.** -/
theorem not_float_arithmetic_kept : ¬∀ (op : Operator) (l r : Expr),
    l.isFloatValued = true ∨ r.isFloatValued = true →
      (Expr.binary op l r).fold = .binary op l.fold r.fold := by
  intro h
  have hmul : (mixedSum * .int 0).fold ≠ mixedSum.fold * (Expr.int 0).fold := by decide
  exact hmul (h .mul mixedSum (.int 0) (.inl (by decide)))

/-- **Every floating-point value that an integer type hides can be folded away**: zero added to it
is dropped, and multiplied by zero it is dropped itself, unless it calls a function. -/
theorem hidden_float_lost {e : Expr} (hfloat : e.HidesFloat) (hint : e.type.isInt = true) :
    (e + .int 0).fold = e.fold ∧
    ((e * .int 0).isFloatValued = true ∧
      ((e * .int 0).fold = .int 0 ↔ e.hasEffect = false)) := by
  have htype : e.fold.type.isInt = true := (Expr.type_class_fold e).1.trans hint
  refine ⟨Expr.foldOperation_of_identity htype rfl (.add_zero e.fold), ?_, fun h => ?_, fun h => ?_⟩
  · exact Expr.isFloatValued_binary_iff.2 ⟨rfl, .inl hfloat.1⟩
  · -- the literal calls nothing, so neither did the product
    have hproduct := Expr.hasEffect_fold (e * .int 0)
    rw [h] at hproduct
    exact (Bool.or_eq_false_iff.1 hproduct.symm).1
  · rw [← Expr.hasEffect_fold] at h
    exact Expr.foldOperation_of_identity htype rfl (.mul_zero h)

end LoopNest
