import LoopNest.C.Emit
import LoopNest.Proofs.Formulas
import LoopNest.Proofs.NormalForms
import LoopNest.Proofs.Quotients

/-!
# What the routines compute

The formulas of the two integer routines, run as C runs them: division cuts toward zero, a test is
an `int`, and arithmetic is done in the wider type of the operands. Where C leaves the behaviour
open there is no value: division by zero, and arithmetic whose result is not of its type. Names are
of 64 bits. Of `int` only the range that every implementation has is counted on. What is run is what
the text is read as.

* `C.Formula.eval?`, `C.BinaryFunction.call?`: the value of a formula, and what a call returns;
* `C.Returns`: what a call of the function with a given text returns;
* **`C.Routine.reads_source`**: the text of a routine is read as it;
* **`C.Routine.call?_floorDiv`**, **`C.Routine.call?_floorMod`**: what the routines return, and when
  nothing overflows on the way;
* **`floor_arithmetic_agrees`**: folding and the routines divide alike;
* **`floorMod_given_up_iff`**: where folding gives a remainder up although its routine finds it.
-/

namespace LoopNest

namespace C

/-! ## Values of formulas -/

/-- The types of formulas. -/
inductive IntType where
  | int
  | int64
deriving DecidableEq

namespace IntType

/-- The number is a value of the type, on every implementation. -/
def Holds : IntType → Int → Prop
  | int, n => -0x7fff ≤ n ∧ n ≤ 0x7fff
  | int64, n => Word.Fits n

instance : ∀ (t : IntType) (n : Int), Decidable (t.Holds n)
  | int, _ => inferInstanceAs (Decidable (_ ∧ _))
  | int64, n => inferInstanceAs (Decidable (Word.Fits n))

/-- The exact result of an operation in the type, if it is a value of it. -/
def represent? (t : IntType) (n : Int) : Option Int := if t.Holds n then some n else none

/-- The type in which operands of two types are computed. -/
def join : IntType → IntType → IntType
  | int, int => int
  | _, _ => int64

end IntType

/-- One or zero. -/
def truth (p : Bool) : Int := if p then 1 else 0

@[simp] theorem truth_eq_zero_iff {p : Bool} : truth p = 0 ↔ p = false := by
  cases p <;> decide

@[simp] theorem truth_inj {p q : Bool} : truth p = truth q ↔ p = q := by
  cases p <;> cases q <;> decide

/-- The operator is a test. -/
def FormulaOp.tests : FormulaOp → Bool
  | less | differ | both => true
  | quot | rem | add | sub => false

/-- An operator on two values, computed in a type. -/
def FormulaOp.compute? (o : FormulaOp) (t : IntType) (x y : Int) : Option Int :=
  match o with
  | quot => if y = 0 then none else t.represent? (x.tdiv y)
  -- the remainder is defined where the quotient is
  | rem => if y = 0 ∨ ¬t.Holds (x.tdiv y) then none else t.represent? (x.tmod y)
  | add => t.represent? (x + y)
  | sub => t.represent? (x - y)
  | less => some (truth (x < y))
  | differ => some (truth (x ≠ y))
  | both => some (truth (x ≠ 0 ∧ y ≠ 0))

namespace Formula

/-- The type of a formula. -/
def type : Formula → IntType
  | name _ => .int64
  | lit _ => .int
  | op o l r => if o.tests then .int else l.type.join r.type
  | paren f => f.type
  | cond _ y n => y.type.join n.type

/-- The value of a formula. The right side of `&&` is passed over if the left one is zero, and so is
the branch of a condition that is not chosen. -/
def eval? (ρ : String → Option Int) : Formula → Option Int
  | name s => ρ s
  | lit n => IntType.int.represent? n
  | op o l r => do
    let x ← l.eval? ρ
    if o = .both ∧ x = 0 then some 0
    else do
      let y ← r.eval? ρ
      o.compute? (l.type.join r.type) x y
  | paren f => f.eval? ρ
  | cond t y n => do
    let x ← t.eval? ρ
    if x ≠ 0 then y.eval? ρ else n.eval? ρ

end Formula

/-! ## Calls -/

namespace BinaryFunction

/-- What the names stand for: the parameters, and the local variable if it has a value. -/
def names (f : BinaryFunction) (a b : Word) (x : Option Word) (s : String) : Option Int :=
  if s = f.first then some a.toInt
  else if s = f.second then some b.toInt
  else if s = f.localName then x.map Int64.toInt
  else none

/-- What a call returns, if its behaviour is defined. -/
def call? (f : BinaryFunction) (a b : Word) : Option Word := do
  let x ← f.localValue.eval? (f.names a b none)
  let x ← Word.ofInt? x
  let y ← f.result.eval? (f.names a b (some x))
  Word.ofInt? y

end BinaryFunction

/-- The text is read as the definition of a function with the name, and a call of that function
returns the value. -/
def Returns (text name : String) (a b r : Word) : Prop :=
  ∃ f : BinaryFunction, f.Reads (tokens text) ∧ f.name = name ∧ f.call? a b = some r

namespace Routine

/-- The routine as a function. -/
def function (h : Routine) : BinaryFunction :=
  ⟨h.name, "a", "b", h.localName, h.localValue, h.result⟩

/-- What the names in a routine stand for. -/
def names (h : Routine) : Word → Word → Option Word → String → Option Int := h.function.names

/-- What a call of a routine returns, if its behaviour is defined. -/
def call? (h : Routine) (a b : Word) : Option Word := h.function.call? a b

theorem call?_eq (h : Routine) (a b : Word) : h.call? a b =
    ((h.localValue.eval? (h.names a b none)).bind Word.ofInt?).bind fun x =>
      (h.result.eval? (h.names a b (some x))).bind Word.ofInt? :=
  (Option.bind_assoc _ _ _).symm

/-! ## Texts -/

/-- The parentheses that C needs are written. -/
theorem isGrouped (h : Routine) : h.localValue.isGrouped = true ∧ h.result.isGrouped = true := by
  cases h <;> decide

theorem isPlainName_of_mem {h : Routine} {s : String}
    (hs : s ∈ h.function.allNames ++ (h.localValue.names ++ h.result.names)) : IsPlainName s := by
  have hall : ∀ s ∈ h.function.allNames ++ (h.localValue.names ++ h.result.names),
      identifier s = s ∧ s ∉ keywords := by
    cases h <;> decide
  obtain ⟨hidentifier, hkeyword⟩ := hall s hs
  exact ⟨hidentifier ▸ isIdentifier_identifier s, hkeyword⟩

theorem tokens_source (h : Routine) : tokens h.source =
    ["static", "inline", "int64_t", h.name, "(", "int64_t", "a", ",", "int64_t", "b", ")", "\x7b",
      "int64_t", h.localName, "="] ++ (tokens h.localValue.text ++ ";" :: "return" ::
        (tokens h.result.text ++ ";" :: ["\x7d"])) := by
  cases h <;> decide +kernel

/-- **The text of a routine is read as it.** -/
theorem reads_source (h : Routine) : h.function.Reads (tokens h.source) := by
  have hvalue : ∀ s ∈ h.localValue.names, IsPlainName s := fun s hs =>
    isPlainName_of_mem (h := h) (List.mem_append_right _ (List.mem_append_left _ hs))
  have hresult : ∀ s ∈ h.result.names, IsPlainName s := fun s hs =>
    isPlainName_of_mem (h := h) (List.mem_append_right _ (List.mem_append_right _ hs))
  refine ⟨fun s hs => isPlainName_of_mem (List.mem_append_left _ hs), ?_, _, _,
    (Formula.reads_text h.isGrouped.1 hvalue).mono (Nat.zero_le _),
    (Formula.reads_text h.isGrouped.2 hresult).mono (Nat.zero_le _), h.tokens_source⟩
  cases h <;> decide

/-- **What the text of a routine returns** is what the routine returns. -/
theorem returns_source {h : Routine} {a b r : Word} :
    Returns h.source h.name a b r ↔ h.call? a b = some r := by
  constructor
  · rintro ⟨f, hf, -, hcall⟩
    rw [call?, h.reads_source.unique hf, hcall]
  · exact fun hcall => ⟨h.function, h.reads_source, rfl, hcall⟩

end Routine

section

variable {ρ : String → Option Int} {x y : String} {m n : Int}

namespace Formula

theorem eval?_negative (hx : ρ x = some m) :
    (Routine.negative x).eval? ρ = some (truth (decide (m < 0))) := by
  have hzero : IntType.int.represent? 0 = some 0 := rfl
  simp [Routine.negative, eval?, hx, hzero, FormulaOp.compute?]

theorem eval?_signsDiffer (hx : ρ x = some m) (hy : ρ y = some n) :
    (Routine.signsDiffer x y).eval? ρ = some (truth (decide (m < 0) ≠ decide (n < 0))) := by
  simp [Routine.signsDiffer, eval?, eval?_negative hx, eval?_negative hy, FormulaOp.compute?]

/-- The test of a correction: the division is not exact, and the signs differ. -/
theorem eval?_correction {t : Formula} {k : Int} (ht : t.eval? ρ = some k) (hx : ρ x = some m)
    (hy : ρ y = some n) :
    (paren (op .both (op .differ t (lit 0)) (Routine.signsDiffer x y))).eval? ρ =
      some (truth (decide (k ≠ 0 ∧ (decide (m < 0) ≠ decide (n < 0))))) := by
  have hzero : IntType.int.represent? 0 = some 0 := rfl
  by_cases hk : k = 0
  · simp [eval?, ht, hzero, FormulaOp.compute?, hk, truth]
  · simp [eval?, ht, hzero, eval?_signsDiffer hx hy, FormulaOp.compute?, hk]

theorem eval?_cond {t f g : Formula} {p : Bool} (ht : t.eval? ρ = some (truth p)) :
    (cond t f g).eval? ρ = if p then f.eval? ρ else g.eval? ρ := by
  cases p <;> simp [eval?, ht, truth]

end Formula

end

section

variable {h : Routine} {a b q r : Word} {x : Option Word}

namespace Routine

@[simp] theorem names_a : h.names a b x "a" = some a.toInt := rfl

@[simp] theorem names_b : h.names a b x "b" = some b.toInt := rfl

@[simp] theorem names_local : h.names a b x h.localName = x.map Int64.toInt := by
  cases h <;> rfl

theorem eval?_quot (hab : Word.HasQuotient a b) :
    (Formula.op .quot (.name "a") (.name "b")).eval? (h.names a b x) =
      some (a.toInt.tdiv b.toInt) := by
  have hb := Word.toInt_ne_zero hab.1
  have hfits : IntType.int64.Holds (a.toInt.tdiv b.toInt) := (Word.fits_tdiv_iff hab.1).2 hab.2
  simp [Formula.eval?, FormulaOp.compute?, IntType.join, IntType.represent?, Formula.type, hb,
    hfits]

/-- A remainder is as small as its divisor. -/
theorem fits_tmod (hb : b ≠ 0) : Word.Fits (a.toInt.tmod b.toInt) := by
  have hlt : (a.toInt.tmod b.toInt).natAbs < b.toInt.natAbs := by
    rw [Int.natAbs_tmod]
    exact Nat.mod_lt _ (Int.natAbs_pos.2 (Word.toInt_ne_zero hb))
  have hbounds := Word.fits_toInt b
  unfold Word.Fits at hbounds ⊢
  omega

theorem eval?_rem (hab : Word.HasQuotient a b) :
    (Formula.op .rem (.name "a") (.name "b")).eval? (h.names a b x) =
      some (a.toInt.tmod b.toInt) := by
  have hb := Word.toInt_ne_zero hab.1
  have hquot : IntType.int64.Holds (a.toInt.tdiv b.toInt) := (Word.fits_tdiv_iff hab.1).2 hab.2
  have hfits : IntType.int64.Holds (a.toInt.tmod b.toInt) := fits_tmod hab.1
  simp [Formula.eval?, FormulaOp.compute?, IntType.join, IntType.represent?, Formula.type, hb,
    hquot, hfits]

/-- Without a quotient there is nothing for the local variable to hold. -/
theorem eval?_localValue_of_not (hab : ¬Word.HasQuotient a b) :
    h.localValue.eval? (h.names a b x) = none := by
  by_cases hb : b = 0
  · cases h <;> simp [localValue, Formula.eval?, FormulaOp.compute?, hb]
  · have hquot : ¬IntType.int64.Holds (a.toInt.tdiv b.toInt) := fun hfits =>
      hab ⟨hb, (Word.fits_tdiv_iff hb).1 hfits⟩
    cases h <;> simp [localValue, Formula.eval?, FormulaOp.compute?, IntType.join,
      IntType.represent?, Formula.type, hquot]

theorem call?_of_not (hab : ¬Word.HasQuotient a b) : h.call? a b = none := by
  rw [call?_eq, eval?_localValue_of_not hab]
  rfl

theorem eval?_result_floorDiv {c : Word} (hab : Word.HasQuotient a b)
    (hc : c.toInt = a.toInt.tdiv b.toInt) :
    floorDiv.result.eval? (floorDiv.names a b (some c)) = some (a.toInt.fdiv b.toInt) := by
  have hlocal : floorDiv.names a b (some c) "q" = some c.toInt := names_local
  have hfits : IntType.int64.Holds (a.toInt.fdiv b.toInt) := hab.fits_fdiv
  have htest := Formula.eval?_correction (eval?_rem (h := floorDiv) (x := some c) hab) names_a
    names_b
  rw [result, Formula.eval?_cond htest]
  rw [Word.fdiv_eq_ite (Word.toInt_ne_zero hab.1)] at hfits ⊢
  simp only [Int.dvd_iff_tmod_eq_zero, decide_eq_true_eq] at hfits ⊢
  split_ifs at hfits ⊢ with hcut
  · have hone : IntType.int.Holds 1 := by decide
    simp [Formula.eval?, hlocal, hone, hc, FormulaOp.compute?, Formula.type, IntType.join,
      IntType.represent?, hfits]
  · rw [Formula.eval?, hlocal, hc]

theorem eval?_result_floorMod {c : Word} (hb : b ≠ 0) (hc : c.toInt = a.toInt.tmod b.toInt) :
    floorMod.result.eval? (floorMod.names a b (some c)) = some (a.toInt.fmod b.toInt) := by
  have hlocal : floorMod.names a b (some c) "r" = some c.toInt := names_local
  have hfits : IntType.int64.Holds (a.toInt.fmod b.toInt) := Word.fits_fmod hb
  have htest := Formula.eval?_correction (t := .name "r") (by rw [Formula.eval?, hlocal]) hlocal
    (names_b (h := floorMod) (a := a) (b := b))
  rw [result, Formula.eval?_cond htest, hc]
  rw [fmod_eq_ite (Word.toInt_ne_zero hb)] at hfits ⊢
  simp only [decide_eq_true_eq] at hfits ⊢
  split_ifs at hfits ⊢ with hcut
  · simp [Formula.eval?, hlocal, hc, FormulaOp.compute?, Formula.type, IntType.join,
      IntType.represent?, hfits]
  · rw [Formula.eval?, hlocal, hc]

/-- A call whose two formulas have a value. -/
theorem call?_of_eval? {m n : Int} (hm : h.localValue.eval? (h.names a b none) = some m)
    (hfits : Word.Fits m)
    (hn : ∀ c : Word, c.toInt = m → h.result.eval? (h.names a b (some c)) = some n) :
    h.call? a b = some r ↔ r.toInt = n := by
  simp only [call?_eq, hm, Option.bind_some, Word.ofInt?_of_fits hfits,
    hn _ (Word.toInt_ofInt_of_fits hfits), Word.ofInt?_eq_some_iff]

/-- **The routine of the quotient** returns it wherever there is one. -/
theorem call?_floorDiv :
    floorDiv.call? a b = some q ↔ Word.HasQuotient a b ∧ q.toInt = a.toInt.fdiv b.toInt := by
  by_cases hab : Word.HasQuotient a b
  · rw [call?_of_eval? (eval?_quot hab) ((Word.fits_tdiv_iff hab.1).2 hab.2)
      fun c hc => eval?_result_floorDiv hab hc]
    simp [hab]
  · simp [call?_of_not hab, hab]

/-- **The routine of the remainder** returns it wherever there is a quotient. -/
theorem call?_floorMod :
    floorMod.call? a b = some r ↔ Word.HasQuotient a b ∧ r.toInt = a.toInt.fmod b.toInt := by
  by_cases hab : Word.HasQuotient a b
  · rw [call?_of_eval? (eval?_rem hab) (fits_tmod hab.1)
      fun c hc => eval?_result_floorMod hab.1 hc]
    simp [hab]
  · simp [call?_of_not hab, hab]

end Routine

end

end C

/-! ## Folding and the routines -/

section

variable {a b r : Word}

theorem Expr.fold_floorMod_eq_self_iff :
    (binary .floorMod (int a) (int b)).fold = binary .floorMod (int a) (int b) ↔
      Word.floorMod? a b = none := by
  rw [fold_literals, Operator.fold?]
  cases Word.floorMod? a b <;> simp

theorem Word.floorMod?_eq_none_iff :
    floorMod? a b = none ↔ HasQuotient a b → ¬Fits (b.toInt * a.toInt.fdiv b.toInt) := by
  rw [Option.eq_none_iff_forall_ne_some]
  constructor
  · intro h hab hfits
    exact h _ (floorMod?_eq_some_iff.2 ⟨hab, hfits, toInt_ofInt_of_fits (fits_fmod hab.1)⟩)
  · intro h r hr
    obtain ⟨hab, hfits, -⟩ := floorMod?_eq_some_iff.1 hr
    exact h hab hfits

theorem C.Routine.isSome_call?_floorMod :
    (floorMod.call? a b).isSome = true ↔ Word.HasQuotient a b := by
  rw [Option.isSome_iff_exists]
  constructor
  · rintro ⟨r, hr⟩
    exact (call?_floorMod.1 hr).1
  · intro hab
    exact ⟨_, call?_floorMod.2 ⟨hab, Word.toInt_ofInt_of_fits (Word.fits_fmod hab.1)⟩⟩

end

/-- The texts of the routines that a kernel needs stand behind its headers. -/
theorem Target.routines_of_emitFunction {target : Target} {sig : Signature} {body : Block}
    {text : String} (h : target.emitFunction sig body = .ok text) :
    ∃ s rest, target.accept body = .ok s ∧ text = C.banner target sig ++ C.includes target ++
      String.join ((C.Routine.all.filter fun h => s.needs h).map fun h => h.source ++ "\n") ++
      rest := by
  obtain ⟨s, hs, htext⟩ := bind_eq_ok_iff.1 h
  obtain rfl := Except.ok.inj htext
  refine ⟨s, ?_, hs, ?_⟩
  rotate_left
  · simp only [C.function, C.routineSources, C.Stmt.routines, String.append_assoc]
    rfl

/-- **Folding and the routines divide alike.** Words are divided, but for those that have no
quotient, and the quotient is the mathematical floor. A remainder that is found goes with it: it is
zero or has the sign of the divisor, and is smaller. The texts of the routines, read as C and run,
return the same words and nothing else, and nothing overflows on the way; and these texts are what
an emitted kernel has of the routines that it needs. -/
theorem floor_arithmetic_agrees (a b : Word) :
    ((Word.floorDiv? a b).isSome = true ↔ b ≠ 0 ∧ ¬(a = Int64.minValue ∧ b = -1)) ∧
    (∀ q, Word.floorDiv? a b = some q →
      q.toInt = ⌊(a.toInt : ℚ) / b.toInt⌋ ∧
      ∀ s, C.Returns C.Routine.floorDiv.source "stagir_floordiv" a b s ↔ s = q) ∧
    (∀ r, Word.floorMod? a b = some r →
      a.toInt = b.toInt * ⌊(a.toInt : ℚ) / b.toInt⌋ + r.toInt ∧
      (r.toInt = 0 ∨ r.toInt.sign = b.toInt.sign) ∧ |r.toInt| < |b.toInt| ∧
      ∀ s, C.Returns C.Routine.floorMod.source "stagir_floormod" a b s ↔ s = r) ∧
    ∀ (target : Target) (sig : Signature) (body : Block) (text : String),
      target.emitFunction sig body = .ok text →
      ∃ s rest, target.accept body = .ok s ∧ text = C.banner target sig ++ C.includes target ++
        String.join ((C.Routine.all.filter fun h => s.needs h).map fun h => h.source ++ "\n") ++
        rest := by
  have hreturns : ∀ {h : C.Routine} {q : Word}, h.call? a b = some q →
      ∀ s, C.Returns h.source h.name a b s ↔ s = q := by
    intro h q hcall s
    rw [C.Routine.returns_source, hcall, Option.some_inj]
    exact eq_comm
  refine ⟨?_, fun q hq => ?_, fun r hr => ?_,
    fun target sig body text h => Target.routines_of_emitFunction h⟩
  · rw [Option.isSome_iff_exists]
    constructor
    · rintro ⟨q, hq⟩
      exact (Word.floorDiv?_eq_some_iff.1 hq).1
    · intro hab
      have hfits := Word.HasQuotient.fits_fdiv hab
      exact ⟨_, Word.floorDiv?_eq_some_iff.2 ⟨hab, Word.toInt_ofInt_of_fits hfits⟩⟩
  · have hquot := Word.floorDiv?_eq_some_iff.1 hq
    rw [← fdiv_eq_floor]
    exact ⟨hquot.2, hreturns (C.Routine.call?_floorDiv.2 hquot)⟩
  · obtain ⟨hab, -, hvalue⟩ := Word.floorMod?_eq_some_iff.1 hr
    have hb := Word.toInt_ne_zero hab.1
    rw [← fdiv_eq_floor, hvalue]
    exact ⟨(Int.mul_fdiv_add_fmod _ _).symm, sign_fmod hb, natAbs_fmod_lt hb,
      hreturns (C.Routine.call?_floorMod.2 ⟨hab, hvalue⟩)⟩

/-- Half of a value, stored. -/
def halfOf (e : Expr) : Block :=
  .store ⟨1, "a", .int32⟩ [.int 0] (.binary .floorDiv e (.int 2))

/-- Minus seven by two: the quotient is below the cut one, and the remainder is positive. A kernel
that divides by two begins with the routine of the quotient. -/
theorem floor_arithmetic_agrees_neg_seven :
    Word.floorDiv? (-7) 2 = some (-4) ∧
    C.Returns C.Routine.floorDiv.source "stagir_floordiv" (-7) 2 (-4) ∧
    Word.floorMod? (-7) 2 = some 1 ∧
    C.Returns C.Routine.floorMod.source "stagir_floormod" (-7) 2 1 ∧
    ∃ text rest, Target.portable.emitFunction ⟨"half", [], []⟩ (halfOf (.var ⟨0, "i", .int32⟩)) =
      .ok text ∧ text = C.includes .portable ++ C.Routine.floorDiv.source ++ rest := by
  have hdiv : Word.floorDiv? (-7) 2 = some (-4) := by decide +kernel
  have hmod : Word.floorMod? (-7) 2 = some 1 := by decide +kernel
  obtain ⟨-, hquot, hrem, hemitted⟩ := floor_arithmetic_agrees (-7) 2
  refine ⟨hdiv, ((hquot _ hdiv).2 _).2 rfl, hmod, ((hrem _ hmod).2.2.2 _).2 rfl, ?_⟩
  obtain ⟨s, rest, hs, htext⟩ := hemitted .portable ⟨"half", [], []⟩
    (halfOf (.var ⟨0, "i", .int32⟩)) _ rfl
  obtain rfl := Except.ok.inj hs
  refine ⟨_, "\n" ++ rest, rfl, htext.trans ?_⟩
  have hbanner : C.banner .portable ⟨"half", [], []⟩ = "" := rfl
  rw [hbanner, String.empty_append, String.append_assoc, String.append_assoc]
  rfl

/-- **Where folding gives a remainder up.** The routine, as its text is read and run, returns the
remainder wherever there is a quotient. Folding finds it through the multiple of the divisor that
goes with the quotient, and leaves the operator where that multiple is no word: below the least word
if the divisor is positive, above the greatest one if it is negative. -/
theorem floorMod_given_up_iff (a b : Word) :
    (∀ r, C.Returns C.Routine.floorMod.source "stagir_floormod" a b r ↔
      C.Routine.floorMod.call? a b = some r) ∧
    (∀ r, C.Routine.floorMod.call? a b = some r ↔
      Word.HasQuotient a b ∧ r.toInt = a.toInt.fmod b.toInt) ∧
    (∀ r, Word.floorMod? a b = some r ↔
      Word.HasQuotient a b ∧ Word.Fits (b.toInt * ⌊(a.toInt : ℚ) / b.toInt⌋) ∧
        r.toInt = a.toInt.fmod b.toInt) ∧
    ((Expr.binary .floorMod (.int a) (.int b)).fold = .binary .floorMod (.int a) (.int b) ∧
        (C.Routine.floorMod.call? a b).isSome = true ↔
      Word.HasQuotient a b ∧
        ((0 < b.toInt ∧ a.toInt - a.toInt.fmod b.toInt < -0x8000000000000000) ∨
          (b.toInt < 0 ∧ 0x8000000000000000 ≤ a.toInt - a.toInt.fmod b.toInt))) := by
  refine ⟨fun r => C.Routine.returns_source (h := .floorMod),
    fun r => C.Routine.call?_floorMod, fun r => ?_, ?_⟩
  · rw [← fdiv_eq_floor]
    exact Word.floorMod?_eq_some_iff
  · rw [Expr.fold_floorMod_eq_self_iff, Word.floorMod?_eq_none_iff,
      C.Routine.isSome_call?_floorMod, and_comm]
    constructor
    · rintro ⟨hab, hnot⟩
      exact ⟨hab, (Word.not_fits_multiple_iff hab.1).1 (hnot hab)⟩
    · rintro ⟨hab, hbeyond⟩
      exact ⟨hab, fun _ => (Word.not_fits_multiple_iff hab.1).2 hbeyond⟩

/-- The least word by the greatest one has the quotient minus two and a remainder that is a word and
that the routine returns; but twice the divisor lies beyond the words, and nothing is folded. -/
theorem not_floorMod_total : ¬∀ a b : Word, b ≠ 0 → ¬(a = Int64.minValue ∧ b = -1) →
    (Word.floorMod? a b).isSome = true ∧
    ((∃ r, C.Returns C.Routine.floorMod.source "stagir_floormod" a b r) →
      (Expr.binary .floorMod (.int a) (.int b)).fold ≠ .binary .floorMod (.int a) (.int b)) := by
  intro h
  have hnone : Word.floorMod? Int64.minValue Int64.maxValue = none := by decide +kernel
  have hsome := (h Int64.minValue Int64.maxValue (by decide) (by decide)).1
  rw [hnone] at hsome
  exact Bool.false_ne_true hsome

end LoopNest
