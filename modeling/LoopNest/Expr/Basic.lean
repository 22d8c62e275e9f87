import LoopNest.Word
import LoopNest.Binary64

/-!
# Scalar expressions

Element types, variables and the immutable expression trees over them. A variable is known by its
number; its name is only for display, so two variables of one name are different variables.

* `ElemType`, `Var`, `Operator`, `Expr`;
* `Expr.type`: the element type of the value of an expression;
* `Expr.agrees`: equality of trees, with a given equality of floating-point literals;
* **`Expr.agrees_beq_iff`**: with equality of bit patterns it is equality, which is thereby
  decidable.
-/

namespace LoopNest

/-! ## Element types -/

/-- The type of a scalar or of the elements of a buffer. -/
inductive ElemType where
  | bool
  | int8
  | int16
  | int32
  | int64
  | uint8
  | uint16
  | uint32
  | uint64
  | float16
  | float32
  | float64
deriving DecidableEq

namespace ElemType

/-- All element types, in order. -/
def all : List ElemType :=
  [bool, int8, int16, int32, int64, uint8, uint16, uint32, uint64, float16, float32, float64]

/-- The written name. -/
def text : ElemType → String
  | bool => "bool"
  | int8 => "int8"
  | int16 => "int16"
  | int32 => "int32"
  | int64 => "int64"
  | uint8 => "uint8"
  | uint16 => "uint16"
  | uint32 => "uint32"
  | uint64 => "uint64"
  | float16 => "float16"
  | float32 => "float32"
  | float64 => "float64"

/-- The element type of a written name. -/
def ofText? (s : String) : Option ElemType := all.find? fun t => t.text = s

theorem ofText?_text (t : ElemType) : ofText? t.text = some t := by
  cases t <;> decide

/-- One of the eight integer types; `bool` is none of them. -/
def isInt : ElemType → Bool
  | int8 | int16 | int32 | int64 | uint8 | uint16 | uint32 | uint64 => true
  | _ => false

/-- One of the three floating-point types. -/
def isFloat : ElemType → Bool
  | float16 | float32 | float64 => true
  | _ => false

end ElemType

/-! ## Variables -/

/-- A typed variable. The number is handed out once, so it alone tells variables apart. -/
structure Var where
  id : Nat
  name : String
  type : ElemType
deriving DecidableEq

/-- The display name; a variable without one is shown by its number. -/
def Var.text (v : Var) : String := if v.name.isEmpty then "v" ++ toString v.id else v.name

/-! ## Expressions -/

/-- The binary operators. Division rounds toward negative infinity, and the remainder goes with
it. -/
inductive Operator where
  | add
  | sub
  | mul
  | floorDiv
  | floorMod
  | min
  | max
  | lt
  | le
  | eq
deriving DecidableEq

namespace Operator

/-- The operator compares its operands. -/
def compares : Operator → Bool
  | lt | le | eq => true
  | _ => false

/-- The sign between the operands, or the name before them. -/
def symbol : Operator → String
  | add => "+"
  | sub => "-"
  | mul => "*"
  | floorDiv => "//"
  | floorMod => "%"
  | min => "min"
  | max => "max"
  | lt => "<"
  | le => "<="
  | eq => "=="

end Operator

/-- A scalar expression. A load reads one element of a buffer; a call is opaque and may have
effects. -/
inductive Expr where
  | int (n : Word)
  | float (x : Binary64)
  | str (s : String)
  | var (v : Var)
  | binary (op : Operator) (lhs rhs : Expr)
  | cast (type : ElemType) (value : Expr)
  | load (buffer : Var) (indices : List Expr)
  | call (type : ElemType) (name : String) (args : List Expr)

namespace Expr

instance : Inhabited Expr := ⟨.int 0⟩

instance : Coe Var Expr := ⟨.var⟩

instance : Add Expr := ⟨.binary .add⟩
instance : Sub Expr := ⟨.binary .sub⟩
instance : Mul Expr := ⟨.binary .mul⟩

/-- The value of an integer literal. -/
def literal? : Expr → Option Word
  | int n => some n
  | _ => none

/-- A literal of any kind. -/
def isLiteral : Expr → Bool
  | int _ | float _ | str _ => true
  | _ => false

/-- The element type of the value. An operator other than a comparison has the type of its left
operand. -/
def type : Expr → ElemType
  | int _ => .int32
  | float _ => .float32
  | str _ => .uint8
  | var v => v.type
  | binary op lhs _ => if op.compares then .bool else lhs.type
  | cast t _ => t
  | load v _ => v.type
  | call t _ _ => t

/-! ## Equality -/

mutual

/-- Two expressions are the same tree, where floating-point literals are compared by `same`. -/
def agrees (same : Binary64 → Binary64 → Bool) : Expr → Expr → Bool
  | int m, int n => m == n
  | float x, float y => same x y
  | str s, str t => s == t
  | var v, var w => v == w
  | binary o a b, binary p c d => o == p && a.agrees same c && b.agrees same d
  | cast t a, cast u b => t == u && a.agrees same b
  | load v is, load w js => v == w && agreesAll same is js
  | call t f as, call u g bs => t == u && f == g && agreesAll same as bs
  | _, _ => false

/-- Two lists agree item by item. -/
def agreesAll (same : Binary64 → Binary64 → Bool) : List Expr → List Expr → Bool
  | [], [] => true
  | a :: as, b :: bs => a.agrees same b && agreesAll same as bs
  | _, _ => false

end

mutual

private theorem eq_of_agrees {a b : Expr} (h : a.agrees (· == ·) b = true) : a = b := by
  cases a <;> cases b <;> simp only [agrees, Bool.and_eq_true, beq_iff_eq, Bool.false_eq_true] at h
  case int => rw [h]
  case float => rw [h]
  case str => rw [h]
  case var => rw [h]
  case binary o a b p c d => rw [h.1.1, eq_of_agrees h.1.2, eq_of_agrees h.2]
  case cast t a u b => rw [h.1, eq_of_agrees h.2]
  case load v is w js => rw [h.1, eq_of_agreesAll h.2]
  case call t f as u g bs => rw [h.1.1, h.1.2, eq_of_agreesAll h.2]

private theorem eq_of_agreesAll {as bs : List Expr} (h : agreesAll (· == ·) as bs = true) :
    as = bs := by
  cases as <;> cases bs <;> simp only [agreesAll, Bool.and_eq_true, Bool.false_eq_true] at h
  case nil => rfl
  case cons a as b bs => rw [eq_of_agrees h.1, eq_of_agreesAll h.2]

end

mutual

private theorem agrees_refl : ∀ a : Expr, a.agrees (· == ·) a = true
  | int _ | float _ | str _ | var _ => by simp [agrees]
  | binary _ a b => by simp [agrees, agrees_refl a, agrees_refl b]
  | cast _ a => by simp [agrees, agrees_refl a]
  | load _ is => by simp [agrees, agreesAll_refl is]
  | call _ _ as => by simp [agrees, agreesAll_refl as]

private theorem agreesAll_refl : ∀ as : List Expr, agreesAll (· == ·) as as = true
  | [] => by simp [agreesAll]
  | a :: as => by simp [agreesAll, agrees_refl a, agreesAll_refl as]

end

/-- **With equality of bit patterns, agreement is equality.** -/
theorem agrees_beq_iff {a b : Expr} : a.agrees (· == ·) b = true ↔ a = b :=
  ⟨eq_of_agrees, fun h => h ▸ agrees_refl a⟩

instance : DecidableEq Expr := fun _ _ => decidable_of_iff _ agrees_beq_iff

end Expr

end LoopNest
