import LoopNest.Decimal.Shortest
import Mathlib.Tactic.Ring

/-!
# Doubles by their neighbourhoods

A double is its sign, its exponent and its fraction. What rounds to one double rounds to no other:
the neighbourhoods of two doubles of different size do not meet, also where they touch, since of two
doubles side by side one has an odd significand and does not own the ends of its neighbourhood. The
shortest decimal is taken from the neighbourhood, so it tells which double it was made from.

* `Binary64.eq_of_fields`: a double is its three fields;
* `Binary64.Below`: the order of size by scale and significand;
* **`Binary64.not_contains_of_below`**: neighbourhoods do not meet;
* **`Neighbourhood.contains_shortest`**: the shortest decimal is in the neighbourhood;
* **`Binary64.eq_of_contains`**: a number rounds to one double of a sign.
-/

namespace LoopNest

open Decimal

namespace Binary64

/-! ## Fields -/

section

variable (x : Binary64)

theorem exponent_eq : x.exponent = x.bits.toNat / 2 ^ 52 % 2 ^ 11 := by
  have hmask : (0x7ff : UInt64).toNat = 2 ^ 11 - 1 := rfl
  rw [exponent, UInt64.toNat_and, UInt64.toNat_shiftRight, hmask, Nat.and_two_pow_sub_one_eq_mod,
    Nat.shiftRight_eq_div_pow]
  rfl

theorem fraction_eq : x.fraction = x.bits.toNat % 2 ^ 52 := by
  have hmask : (0xfffffffffffff : UInt64).toNat = 2 ^ 52 - 1 := rfl
  rw [fraction, UInt64.toNat_and, hmask, Nat.and_two_pow_sub_one_eq_mod]

theorem sign_eq : x.sign = decide (x.bits.toNat / 2 ^ 63 = 1) := by
  have hshift : (x.bits >>> 63).toNat = x.bits.toNat / 2 ^ 63 := by
    rw [UInt64.toNat_shiftRight, Nat.shiftRight_eq_div_pow]
    rfl
  rw [sign, ← hshift, Bool.eq_iff_iff, beq_iff_eq, decide_eq_true_eq, ← UInt64.toNat_inj]
  rfl

theorem fraction_lt : x.fraction < 2 ^ 52 := by
  rw [fraction_eq]
  exact Nat.mod_lt _ (by decide)

end

section

variable {x y : Binary64}

/-- A double is its three fields. -/
theorem eq_of_fields (hsign : x.sign = y.sign) (hexponent : x.exponent = y.exponent)
    (hfraction : x.fraction = y.fraction) : x = y := by
  have hx := x.bits.toNat_lt
  have hy := y.bits.toNat_lt
  rw [sign_eq, sign_eq, decide_eq_decide] at hsign
  rw [exponent_eq, exponent_eq] at hexponent
  rw [fraction_eq, fraction_eq] at hfraction
  have hbits : x.bits.toNat = y.bits.toNat := by omega
  have hsame := UInt64.toNat_inj.1 hbits
  cases x
  cases y
  exact congrArg mk hsame

/-- There is one zero of each sign. -/
theorem eq_of_isZero (hsign : x.sign = y.sign) (hx : x.isZero = true) (hy : y.isZero = true) :
    x = y := by
  simp only [isZero, Bool.and_eq_true, beq_iff_eq] at hx hy
  exact eq_of_fields hsign (hx.1.trans hy.1.symm) (hx.2.trans hy.2.symm)

/-! ## Significands -/

theorem significand_eq (x : Binary64) :
    x.significand = if x.exponent = 0 then x.fraction else x.fraction + 2 ^ 52 := rfl

theorem significand_lt (x : Binary64) : x.significand < 2 ^ 53 := by
  have hfraction := x.fraction_lt
  rw [significand_eq]
  split <;> omega

theorem significand_pos (h : x.isZero = false) : 0 < x.significand := by
  have hzero : ¬(x.exponent = 0 ∧ x.fraction = 0) := by
    simpa [isZero] using h
  rw [significand_eq]
  split <;> omega

/-- At the first number of an exponent the significand is a power of two. -/
theorem significand_of_atBoundary (h : x.atBoundary = true) : x.significand = 2 ^ 52 := by
  simp only [atBoundary, Bool.and_eq_true, beq_iff_eq, decide_eq_true_eq] at h
  rw [significand_eq, if_neg (by omega), h.1, Nat.zero_add]

/-- At all other numbers past the least exponents it is greater. -/
theorem lt_significand (h : x.atBoundary = false) (hscale : 0 < x.scale) :
    2 ^ 52 < x.significand := by
  simp only [atBoundary, Bool.and_eq_false_iff, beq_eq_false_iff_ne, decide_eq_false_iff_not] at h
  unfold scale at hscale
  rw [significand_eq, if_neg (by omega)]
  omega

/-- Scale and significand give the exponent and the fraction. -/
theorem exponent_fraction_eq (hscale : x.scale = y.scale)
    (hsignificand : x.significand = y.significand) :
    x.exponent = y.exponent ∧ x.fraction = y.fraction := by
  have hx := x.fraction_lt
  have hy := y.fraction_lt
  unfold scale at hscale
  rw [significand_eq, significand_eq] at hsignificand
  split at hsignificand <;> split at hsignificand <;> omega

/-! ## Neighbourhoods -/

/-- The order of size: by scale, then by significand. -/
def Below (x y : Binary64) : Prop :=
  x.scale < y.scale ∨ x.scale = y.scale ∧ x.significand < y.significand

theorem eq_or_below (x y : Binary64) :
    (x.scale = y.scale ∧ x.significand = y.significand) ∨ x.Below y ∨ y.Below x := by
  unfold Below
  omega

/-- The lower end of the neighbourhood, in quarters of the least positive number. -/
def floor (x : Binary64) : Nat :=
  (4 * x.significand - if x.atBoundary then 1 else 2) * 2 ^ x.scale

/-- The upper end. -/
def ceiling (x : Binary64) : Nat := (4 * x.significand + 2) * 2 ^ x.scale

/-- The ends, in the units of neighbourhoods. -/
theorem exists_unit : ∃ unit, 0 < unit ∧ ∀ x : Binary64,
    x.neighbourhood.low = x.floor * unit ∧
    x.neighbourhood.value = 4 * x.significand * 2 ^ x.scale * unit ∧
    x.neighbourhood.high = x.ceiling * unit := by
  have hpow : ∀ n, 0 < Nat.pow 5 n := fun n => Nat.pow_pos (by decide)
  have hunit := hpow 1076
  unfold neighbourhood
  generalize Nat.pow 5 1076 = unit at hunit
  refine ⟨unit, hunit, fun x => ?_⟩
  have hshift : ∀ n, n * (unit <<< x.scale) = n * 2 ^ x.scale * unit := by
    intro n
    rw [Nat.shiftLeft_eq, Nat.mul_assoc, Nat.mul_comm (2 ^ x.scale)]
  exact ⟨hshift _, hshift _, hshift _⟩

/-- Of two neighbourhoods the one above begins where the one below ends, or after it. If they touch,
one of the significands is odd. -/
theorem Below.ends (h : x.Below y) : x.ceiling < y.floor ∨
    x.ceiling = y.floor ∧ (x.significand % 2 = 1 ∨ y.significand % 2 = 1) := by
  have hlt := x.significand_lt
  unfold ceiling floor
  rcases h with hscale | ⟨hscale, hsignificand⟩
  · -- The step from the last number of an exponent up to the next one is as wide as all before it.
    obtain ⟨n, hn⟩ := Nat.exists_eq_add_of_lt hscale
    have hpow : 2 ^ y.scale = 2 * 2 ^ n * 2 ^ x.scale := by
      rw [hn]
      ring
    have hone : 1 ≤ 2 ^ n := Nat.one_le_two_pow
    have hpos : 0 < 2 ^ x.scale := Nat.two_pow_pos _
    rw [hpow, ← Nat.mul_assoc, Nat.mul_lt_mul_right hpos, Nat.mul_left_inj hpos.ne']
    cases hb : y.atBoundary with
    | true =>
      rw [significand_of_atBoundary hb, if_pos rfl]
      omega
    | false =>
      have hy := lt_significand hb (by omega)
      rw [if_neg (by decide)]
      have hprod : 4 * y.significand - 2 ≤ (4 * y.significand - 2) * 2 ^ n :=
        Nat.le_mul_of_pos_right _ hone
      refine .inl ?_
      calc 4 * x.significand + 2 < 2 * (4 * y.significand - 2) := by omega
        _ ≤ 2 * ((4 * y.significand - 2) * 2 ^ n) := by omega
        _ = (4 * y.significand - 2) * (2 * 2 ^ n) := by ring
  · have hpos : 0 < 2 ^ y.scale := Nat.two_pow_pos _
    rw [hscale, Nat.mul_lt_mul_right hpos, Nat.mul_left_inj hpos.ne']
    split <;> omega

/-- **Neighbourhoods do not meet.** -/
theorem not_contains_of_below (h : x.Below y) {n : Nat} (hx : x.neighbourhood.contains n = true) :
    y.neighbourhood.contains n = false := by
  obtain ⟨unit, hunit, hends⟩ := exists_unit
  obtain ⟨-, -, hhigh⟩ := hends x
  obtain ⟨hlow, -, -⟩ := hends y
  have hclosed : ∀ z : Binary64, z.neighbourhood.closed = (z.significand % 2 == 0) := fun _ => rfl
  unfold Neighbourhood.contains at hx ⊢
  rw [hclosed, hhigh] at hx
  rw [hclosed, hlow]
  rcases h.ends with hends | ⟨hends, hodd⟩
  · have hgap := Nat.mul_lt_mul_of_pos_right hends hunit
    split at hx <;> split <;> simp only [decide_eq_true_eq, decide_eq_false_iff_not] at * <;> omega
  · rw [hends] at hx
    split at hx <;> split <;>
      simp only [decide_eq_true_eq, decide_eq_false_iff_not, beq_iff_eq] at * <;> omega

end

end Binary64

/-! ## Shortest decimals -/

namespace Decimal.Neighbourhood

variable {i : Neighbourhood} {tie : Tie}

/-- What lies strictly between the ends is in the neighbourhood. -/
theorem contains_of_lt {n : Nat} (hlow : i.low < n)
    (hhigh : n < i.high) : i.contains n = true := by
  unfold contains
  split <;> simp only [decide_eq_true_eq] <;> omega

/-- A multiple that is chosen is in the neighbourhood. -/
theorem contains_of_nearest? {g d : Nat} (h : i.nearest? tie g = some d) :
    i.contains (d * g) = true := by
  unfold nearest? at h
  dsimp only at h
  split at h
  · exact nomatch h
  · obtain rfl := Option.some.inj h
    assumption
  · obtain rfl := Option.some.inj h
    assumption
  · next hbelow habove =>
    have hd : d = i.value / g ∨ d = i.value / g + 1 := by
      split at h <;> obtain rfl := Option.some.inj h
      · exact .inl rfl
      · exact .inr rfl
      · exact .inr rfl
      · split
        · exact .inl rfl
        · exact .inr rfl
    rcases hd with rfl | rfl
    · exact hbelow
    · exact habove

theorem shortest_zero (tie : Tie) : i.shortest tie 0 = (i.value, 0) := rfl

theorem shortest_succ (tie : Tie) (p : Nat) : i.shortest tie (p + 1) =
    match i.nearest? tie (10 ^ (p + 1)) with
    | some d => (d, p + 1)
    | none => i.shortest tie p := rfl

/-- **The shortest decimal is in the neighbourhood.** -/
theorem contains_shortest (h : i.contains i.value = true) (tie : Tie) (p : Nat) :
    i.contains ((i.shortest tie p).1 * 10 ^ (i.shortest tie p).2) = true := by
  induction p with
  | zero => simpa [shortest_zero] using h
  | succ p ih =>
    rw [shortest_succ]
    split
    · next d hd => exact contains_of_nearest? hd
    · exact ih

end Decimal.Neighbourhood

namespace Binary64

variable {x y : Binary64}

theorem ends_around_value (h : x.isZero = false) : 0 < x.neighbourhood.low ∧
    x.neighbourhood.low < x.neighbourhood.value ∧
    x.neighbourhood.value < x.neighbourhood.high := by
  obtain ⟨unit, hunit, hends⟩ := exists_unit
  obtain ⟨hlow, hvalue, hhigh⟩ := hends x
  have hpos := significand_pos h
  have hpow : 0 < 2 ^ x.scale := Nat.two_pow_pos _
  rw [hlow, hvalue, hhigh, floor, ceiling, Nat.mul_lt_mul_right hunit, Nat.mul_lt_mul_right hunit,
    Nat.mul_lt_mul_right hpow, Nat.mul_lt_mul_right hpow]
  refine ⟨Nat.mul_pos (Nat.mul_pos ?_ hpow) hunit, ?_, ?_⟩
  · split <;> omega
  · split <;> omega
  · omega

/-- A number in the neighbourhood is positive. -/
theorem pos_of_contains (h : x.isZero = false) {n : Nat}
    (hn : x.neighbourhood.contains n = true) : 0 < n := by
  have hlow := (ends_around_value h).1
  unfold Neighbourhood.contains at hn
  split at hn <;> simp only [decide_eq_true_eq] at hn <;> omega

/-- The shortest decimal of a double, in the units of neighbourhoods. -/
theorem exists_shortest (h : x.isZero = false) (tie : Tie) :
    ∃ d p : Nat, x.shortest tie = (d, (p : Int) - 1076) ∧
      x.neighbourhood.contains (d * 10 ^ p) = true :=
  have hends := ends_around_value h
  have hvalue := Neighbourhood.contains_of_lt hends.2.1 hends.2.2
  ⟨_, _, rfl, Neighbourhood.contains_shortest hvalue tie _⟩

/-- **A number rounds to one double of a sign.** -/
theorem eq_of_contains (hsign : x.sign = y.sign) {n : Nat}
    (hx : x.neighbourhood.contains n = true) (hy : y.neighbourhood.contains n = true) : x = y := by
  rcases eq_or_below x y with ⟨hscale, hsignificand⟩ | h | h
  · obtain ⟨hexponent, hfraction⟩ := exponent_fraction_eq hscale hsignificand
    exact eq_of_fields hsign hexponent hfraction
  · rw [not_contains_of_below h hx] at hy
    exact nomatch hy
  · rw [not_contains_of_below h hy] at hx
    exact nomatch hx

end Binary64

end LoopNest
