import LoopNest.Block.Basic
import Mathlib.Algebra.Group.Nat.Defs

/-!
# Values, machines and memory

What a run of a kernel computes with. Integers are unbounded. Floating-point arithmetic, casts and
the answers of called functions are left open: a machine is any choice of them. An element of a
buffer is found by the buffer and a list of integers; a buffer just allocated holds nothing.

* `Value`, `Value.fits`, `Value.whole?`: values, their types, and the integer a value stands for;
* `Machine`, `Machine.apply`, `Machine.assign`: operators, and conversion on assignment;
* `Machine.Typed`: a machine whose casts and answers are of the type asked for;
* `Env`, `Memory`, `State`: variables, buffers and the log of calls, where a variable or an element
  only ever holds a value of its type.
-/

namespace LoopNest

/-! ## Values -/

/-- A value of a run, over a type of floating-point numbers. -/
inductive Value (F : Type) where
  | int (n : Int)
  | bool (b : Bool)
  | float (x : F)
  | str (s : String)

namespace Value

variable {F : Type}

/-- A value of the class of a type: any integer for each of the integer types. -/
def fits (t : ElemType) : Value F → Bool
  | int _ => t.isInt
  | bool _ => t == .bool
  | float _ => t.isFloat
  | str _ => false

/-- The integer that an integer or a truth value stands for. -/
def whole? : Value F → Option Int
  | int n => some n
  | bool b => some (if b then 1 else 0)
  | _ => none

@[simp] theorem whole?_int (n : Int) : (int n : Value F).whole? = some n := rfl

theorem eq_int_of_fits {t : ElemType} {x : Value F} (h : x.fits t = true) (ht : t.isInt = true) :
    ∃ n, x = int n := by
  cases x with
  | int n => exact ⟨n, rfl⟩
  | bool b =>
    obtain rfl : t = .bool := by simpa [fits] using h
    exact absurd ht (by decide)
  | float y => cases t <;> simp_all [fits, ElemType.isInt, ElemType.isFloat]
  | str s => simp [fits] at h

theorem eq_float_of_fits {t : ElemType} {x : Value F} (h : x.fits t = true)
    (ht : t.isFloat = true) : ∃ y, x = float y := by
  cases x with
  | float y => exact ⟨y, rfl⟩
  | int n => cases t <;> simp_all [fits, ElemType.isInt, ElemType.isFloat]
  | bool b =>
    obtain rfl : t = .bool := by simpa [fits] using h
    exact absurd ht (by decide)
  | str s => simp [fits] at h

theorem whole_of_fits {t : ElemType} {x : Value F} (h : x.fits t = true)
    (ht : t.isFloat = false) : ∃ n, x.whole? = some n := by
  cases x with
  | int n => exact ⟨n, rfl⟩
  | bool b => exact ⟨_, rfl⟩
  | float y => exact absurd h (by simp [fits, ht])
  | str s => simp [fits] at h

end Value

/-- A call: the type of its answer, the function and the arguments. -/
structure Event (F : Type) where
  type : ElemType
  name : String
  args : List (Value F)

/-- The calls of a run, the first one first. -/
abbrev Log (F : Type) := List (Event F)

/-! ## Machines -/

/-- What a run leaves to the machine. An answer may depend on all calls before. -/
structure Machine (F : Type) where
  literal : Binary64 → F
  arith : Operator → F → F → F
  compare : Operator → F → F → Bool
  /-- Operators on operands of different classes, and on text. -/
  mixed : Operator → Value F → Value F → Option (Value F)
  cast : ElemType → Value F → Value F
  answer : Log F → ElemType → String → List (Value F) → Value F
  /-- Conversion on assignment, to a value of the type. -/
  convert : ElemType → Value F → Value F
  convert_fits : ∀ t x, (convert t x).fits t = true

/-- Casts and answers are values of the type asked for. -/
class Machine.Typed {F : Type} (M : Machine F) : Prop where
  cast_fits : ∀ t x, (M.cast t x).fits t = true
  answer_fits : ∀ log t f xs, (M.answer log t f xs).fits t = true

/-- An operator on integers. There is no division by zero. -/
def Operator.onInts {F : Type} (op : Operator) (m n : Int) : Option (Value F) :=
  match op with
  | .add => some (.int (m + n))
  | .sub => some (.int (m - n))
  | .mul => some (.int (m * n))
  | .floorDiv => if n = 0 then none else some (.int (m.fdiv n))
  | .floorMod => if n = 0 then none else some (.int (m.fmod n))
  | .min => some (.int (Min.min m n))
  | .max => some (.int (Max.max m n))
  | .lt => some (.bool (m < n))
  | .le => some (.bool (m ≤ n))
  | .eq => some (.bool (m = n))

namespace Machine

variable {F : Type} (M : Machine F)

/-- An operator on floating-point numbers. -/
def onFloats (op : Operator) (x y : F) : Value F :=
  if op.compares then .bool (M.compare op x y) else .float (M.arith op x y)

/-- An operator on two values. Truth values count as integers. -/
def apply (op : Operator) (x y : Value F) : Option (Value F) :=
  match x, y with
  | .float a, .float b => some (M.onFloats op a b)
  | _, _ =>
    match x.whole?, y.whole? with
    | some m, some n => op.onInts m n
    | _, _ => M.mixed op x y

theorem apply_of_whole {op : Operator} {x y : Value F} {m n : Int} (hx : x.whole? = some m)
    (hy : y.whole? = some n) : M.apply op x y = op.onInts m n := by
  cases x <;> cases y <;> simp_all [apply, Value.whole?]

@[simp] theorem apply_int (op : Operator) (m n : Int) :
    M.apply op (.int m) (.int n) = op.onInts m n :=
  M.apply_of_whole rfl rfl

/-- A value as it is assigned: a value of the type stays, any other is converted. -/
def assign (t : ElemType) (x : Value F) : Value F := if x.fits t then x else M.convert t x

theorem assign_fits (t : ElemType) (x : Value F) : (M.assign t x).fits t = true := by
  unfold assign
  split
  · assumption
  · exact M.convert_fits t x

theorem assign_int {t : ElemType} (ht : t.isInt = true) (n : Int) :
    M.assign t (.int n) = .int n := if_pos ht

end Machine

/-- A whole number as a value of a type. -/
def Value.ofWhole (t : ElemType) (n : Int) : Value Int :=
  if t = .bool then .bool (n ≠ 0) else if t.isFloat then .float n else .int n

theorem Value.fits_ofWhole (t : ElemType) (n : Int) : (ofWhole t n).fits t = true := by
  cases t <;> rfl

/-- A whole number near a value, as a value of a type. -/
def Value.toType (t : ElemType) : Value Int → Value Int
  | int n | float n => ofWhole t n
  | bool b => ofWhole t (if b then 1 else 0)
  | str _ => ofWhole t 0

theorem Value.fits_toType (t : ElemType) (x : Value Int) : (x.toType t).fits t = true := by
  cases x <;> exact fits_ofWhole t _

/-- A machine whose floating-point numbers are whole. Every call answers with the number of calls
before it. -/
def Machine.counting : Machine Int where
  literal x := (if x.sign then -1 else 1) * (x.significand * 2 ^ x.scale / 2 ^ 1074 : Nat)
  arith op x y :=
    match op with
    | .add => x + y
    | .sub => x - y
    | .mul => x * y
    | .floorDiv => x.fdiv y
    | .floorMod => x.fmod y
    | .min => Min.min x y
    | _ => Max.max x y
  compare op x y :=
    match op with
    | .lt => x < y
    | .le => x ≤ y
    | _ => x = y
  mixed _ _ _ := none
  cast := Value.toType
  answer log t _ _ := .ofWhole t log.length
  convert := Value.toType
  convert_fits := Value.fits_toType

instance : Machine.counting.Typed where
  cast_fits := Value.fits_toType
  answer_fits log t _ _ := Value.fits_ofWhole t log.length

/-! ## Variables and memory -/

/-- The values of all variables, each of its variable's type. -/
structure Env (F : Type) where
  value : Var → Value F
  fits : ∀ v, (value v).fits v.type = true

namespace Env

variable {F : Type}

@[ext] theorem ext {ρ τ : Env F} (h : ∀ v, ρ.value v = τ.value v) : ρ = τ := by
  cases ρ
  cases τ
  congr
  exact funext h

/-- Let a variable stand for a value, as it is assigned. -/
def set (M : Machine F) (ρ : Env F) (v : Var) (x : Value F) : Env F where
  value w := if w = v then M.assign v.type x else ρ.value w
  fits w := by
    split
    · next h => exact h ▸ M.assign_fits v.type x
    · exact ρ.fits w

variable (M : Machine F) (ρ : Env F)

theorem set_self (v : Var) (x : Value F) : (ρ.set M v x).value v = M.assign v.type x := if_pos rfl

theorem set_of_ne {v w : Var} (h : w ≠ v) (x : Value F) : (ρ.set M v x).value w = ρ.value w :=
  if_neg h

theorem set_comm {v w : Var} (h : v ≠ w) (x y : Value F) :
    (ρ.set M v x).set M w y = (ρ.set M w y).set M v x := by
  ext u
  by_cases hv : u = v
  · subst hv
    rw [set_of_ne _ _ h, set_self, set_self]
  · by_cases hw : u = w
    · subst hw
      rw [set_self, set_of_ne _ _ hv, set_self]
    · rw [set_of_ne _ _ hw, set_of_ne _ _ hv, set_of_ne _ _ hv, set_of_ne _ _ hw]

end Env

/-- Every variable stands for zero. -/
def Env.zero : Env Int := ⟨fun v => .ofWhole v.type 0, fun v => Value.fits_ofWhole v.type 0⟩

/-- The elements of all buffers by their indices, each of its buffer's type. An element may hold
nothing yet. -/
structure Memory (F : Type) where
  cell : Var → List Int → Option (Value F)
  fits : ∀ v c x, cell v c = some x → x.fits v.type = true

namespace Memory

variable {F : Type}

@[ext] theorem ext {μ ν : Memory F} (h : ∀ v c, μ.cell v c = ν.cell v c) : μ = ν := by
  cases μ
  cases ν
  congr
  exact funext fun v => funext fun c => h v c

/-- No buffer holds anything. -/
def empty : Memory F := ⟨fun _ _ => none, fun _ _ _ h => nomatch h⟩

/-- Write one element, as it is assigned. -/
def store (M : Machine F) (μ : Memory F) (v : Var) (c : List Int) (x : Value F) : Memory F where
  cell w d := if w = v ∧ d = c then some (M.assign v.type x) else μ.cell w d
  fits w d y h := by
    split at h
    · next hw =>
      obtain rfl := Option.some.inj h
      exact hw.1 ▸ M.assign_fits v.type x
    · exact μ.fits w d y h

/-- The contents of one buffer as another memory has them. -/
def restore (μ : Memory F) (v : Var) (ν : Memory F) : Memory F where
  cell w := if w = v then ν.cell w else μ.cell w
  fits w c x h := by
    split at h
    · exact ν.fits w c x h
    · exact μ.fits w c x h

/-- A buffer as it is when it was just allocated. -/
def clear (μ : Memory F) (v : Var) : Memory F := μ.restore v empty

section

variable (M : Machine F) (μ ν : Memory F)

theorem store_self (v : Var) (c : List Int) (x : Value F) :
    (μ.store M v c x).cell v c = some (M.assign v.type x) := if_pos ⟨rfl, rfl⟩

theorem store_of_ne {v w : Var} {c d : List Int} (h : ¬(w = v ∧ d = c)) (x : Value F) :
    (μ.store M v c x).cell w d = μ.cell w d := if_neg h

theorem restore_self (v : Var) : (μ.restore v ν).cell v = ν.cell v := if_pos rfl

theorem restore_of_ne {v w : Var} (h : w ≠ v) : (μ.restore v ν).cell w = μ.cell w := if_neg h

end

end Memory

/-- Memory and the calls so far. -/
structure State (F : Type) where
  memory : Memory F
  log : Log F

/-- Nothing is stored yet, and nothing was called. -/
def State.start {F : Type} : State F := ⟨.empty, []⟩

end LoopNest
