import LoopNest.Proofs.Folding
import Mathlib.Data.Rat.Floor

/-!
# Quotients and remainders of words

Division toward negative infinity against the mathematical floor. The quotient of two words is a
word, but for the least word divided by minus one, which is as large as no word is. The remainder
always is a word; it is found as the dividend less a multiple of the divisor, and that multiple may
lie beyond the words although the remainder does not.

* `Word.HasQuotient`: the quotient of two words is a word;
* **`fdiv_eq_floor`**, **`fmod_bounds`**: the quotient is the floor; bounds of the remainder;
* **`Word.floorDiv?_eq_some_iff`**, **`Word.floorMod?_eq_some_iff`**: which words have a quotient
  and a remainder, and what they are;
* **`Word.not_fits_multiple_iff`**: when the multiple lies beyond the words.
-/

namespace LoopNest

/-! ## Integers -/

section

variable {a b : Int}

/-- **The quotient toward negative infinity is the floor** of the rational quotient. -/
theorem fdiv_eq_floor (a b : Int) : a.fdiv b = ⌊(a : ℚ) / b⌋ := by
  obtain ⟨n, rfl | rfl⟩ := b.eq_nat_or_neg
  · rw [Int.fdiv_eq_ediv_of_nonneg a (Int.natCast_nonneg n), Int.cast_natCast,
      Rat.floor_intCast_div_natCast]
  · rw [← Int.neg_fdiv_neg, neg_neg, Int.fdiv_eq_ediv_of_nonneg _ (Int.natCast_nonneg n),
      ← Rat.floor_intCast_div_natCast, Int.cast_neg, Int.cast_neg, Int.cast_natCast, neg_div,
      div_neg]

/-- **The remainder lies between zero and the divisor**, on the divisor's side. -/
theorem fmod_bounds (hb : b ≠ 0) :
    (0 < b ∧ 0 ≤ a.fmod b ∧ a.fmod b < b) ∨ (b < 0 ∧ b < a.fmod b ∧ a.fmod b ≤ 0) := by
  rcases lt_or_gt_of_ne hb with hneg | hpos
  · have hge := Int.fmod_nonneg_of_pos (-a) (neg_pos.2 hneg)
    have hlt := Int.fmod_lt_of_pos (-a) (neg_pos.2 hneg)
    rw [Int.neg_fmod_neg] at hge hlt
    exact .inr ⟨hneg, by omega, by omega⟩
  · exact .inl ⟨hpos, Int.fmod_nonneg_of_pos a hpos, Int.fmod_lt_of_pos a hpos⟩

theorem natAbs_fmod_lt (hb : b ≠ 0) : |a.fmod b| < |b| := by
  rcases fmod_bounds (a := a) hb with ⟨hpos, hge, hlt⟩ | ⟨hneg, hgt, hle⟩
  · rw [abs_of_nonneg hge, abs_of_pos hpos]
    exact hlt
  · rw [abs_of_nonpos hle, abs_of_neg hneg]
    exact neg_lt_neg hgt

/-- A remainder that is not zero has the sign of the divisor. -/
theorem sign_fmod (hb : b ≠ 0) : a.fmod b = 0 ∨ (a.fmod b).sign = b.sign := by
  rcases fmod_bounds (a := a) hb with ⟨hpos, hge, -⟩ | ⟨hneg, -, hle⟩
  · rcases hge.eq_or_lt with hzero | hgt
    · exact .inl hzero.symm
    · exact .inr (by rw [Int.sign_eq_one_of_pos hgt, Int.sign_eq_one_of_pos hpos])
  · rcases hle.eq_or_lt with hzero | hlt
    · exact .inl hzero
    · exact .inr (by rw [Int.sign_eq_neg_one_of_neg hlt, Int.sign_eq_neg_one_of_neg hneg])

/-- The remainder that goes with the quotient cut toward zero, corrected by the divisor where it is
not zero and the signs differ. -/
theorem fmod_eq_ite (hb : b ≠ 0) : a.fmod b =
    if a.tmod b ≠ 0 ∧ (decide (a.tmod b < 0) ≠ decide (b < 0)) then a.tmod b + b
    else a.tmod b := by
  have hcut : (a.tmod b ≠ 0 ∧ (decide (a.tmod b < 0) ≠ decide (b < 0))) ↔
      ¬b ∣ a ∧ (decide (a < 0) ≠ decide (b < 0)) := by
    rw [Int.dvd_iff_tmod_eq_zero]
    refine and_congr_right fun hne => ?_
    -- a remainder that is not zero has the sign of the dividend
    have hsign := Int.sign_tmod a b
    rw [if_neg (mt Int.dvd_iff_tmod_eq_zero.1 hne)] at hsign
    have hneg : a.tmod b < 0 ↔ a < 0 := by
      rw [← Int.sign_eq_neg_one_iff_neg, hsign, Int.sign_eq_neg_one_iff_neg]
    simp only [hneg]
  simp only [hcut]
  rw [Int.fmod_def, Int.tmod_def, Word.fdiv_eq_ite hb]
  split_ifs
  · rw [mul_sub, mul_one]
    omega
  · rfl

end

namespace Word

/-! ## Quotients -/

/-- The quotient of two words is a word. -/
def HasQuotient (a b : Word) : Prop := b ≠ 0 ∧ ¬(a = Int64.minValue ∧ b = -1)

instance (a b : Word) : Decidable (HasQuotient a b) := inferInstanceAs (Decidable (_ ∧ _))

theorem eq_minValue_iff {a : Word} : a = Int64.minValue ↔ a.toInt = -0x8000000000000000 := by
  rw [← Int64.toInt_inj, Int64.toInt_minValue]
  rfl

theorem eq_neg_one_iff {a : Word} : a = -1 ↔ a.toInt = -1 := by
  rw [← Int64.toInt_inj]
  rfl

/-- A divisor of at least two halves what it divides, at least. -/
theorem natAbs_tdiv_le {a b : Int} (ha : Fits a) (hb : 2 ≤ b.natAbs) :
    (a.tdiv b).natAbs ≤ 0x4000000000000000 := by
  have hle : a.natAbs ≤ 0x8000000000000000 := by
    unfold Fits at ha
    omega
  calc (a.tdiv b).natAbs = a.natAbs / b.natAbs := Int.natAbs_tdiv a b
    _ ≤ 0x8000000000000000 / 2 := Nat.div_le_div hle hb (by decide)
    _ = 0x4000000000000000 := rfl

variable {a b q r : Word}

theorem fits_tdiv_iff (hb : b ≠ 0) :
    Fits (a.toInt.tdiv b.toInt) ↔ ¬(a = Int64.minValue ∧ b = -1) := by
  have ha := fits_toInt a
  have hne := toInt_ne_zero hb
  rw [eq_minValue_iff, eq_neg_one_iff]
  by_cases hsmall : 2 ≤ b.toInt.natAbs
  · have hle := natAbs_tdiv_le ha hsmall
    unfold Fits
    omega
  · have hcases : b.toInt = 1 ∨ b.toInt = -1 := by omega
    unfold Fits at ha ⊢
    rcases hcases with h | h
    · rw [h, Int.tdiv_one]
      omega
    · rw [h, Int.tdiv_neg, Int.tdiv_one]
      omega

theorem HasQuotient.fits_fdiv (h : HasQuotient a b) : Fits (a.toInt.fdiv b.toInt) := by
  have ht := (fits_tdiv_iff h.1).2 h.2
  rw [fdiv_eq_ite (toInt_ne_zero h.1)]
  split_ifs with hcut
  · -- A division by one or minus one is exact, so the cut quotient has room below.
    have hsmall : 2 ≤ b.toInt.natAbs := by
      by_contra hlt
      have hunit : b.toInt.natAbs = 1 := by
        have := toInt_ne_zero h.1
        omega
      exact hcut.1 (Int.natAbs_dvd_natAbs.1 (hunit ▸ Nat.one_dvd _))
    have hle := natAbs_tdiv_le (fits_toInt a) hsmall
    unfold Fits
    omega
  · exact ht

theorem mod_ne_zero_iff : a % b ≠ 0 ↔ ¬b.toInt ∣ a.toInt := by
  rw [Int.dvd_iff_tmod_eq_zero, ← Int64.toInt_mod, not_iff_not, ← Int64.toInt_inj,
    Int64.toInt_zero]

/-- **Which words have a quotient, and what it is.** -/
theorem floorDiv?_eq_some_iff :
    floorDiv? a b = some q ↔ HasQuotient a b ∧ q.toInt = a.toInt.fdiv b.toInt := by
  constructor
  · intro h
    obtain ⟨hb, hq⟩ := floorDiv?_eq_some h
    refine ⟨⟨hb, fun hedge => ?_⟩, hq⟩
    -- what is not divided is the quotient that is cut toward zero
    obtain ⟨c, hc, -⟩ := Option.bind_eq_some_iff.1 h
    have hfits := fits_toInt c
    rw [(quot?_eq_some hc).2] at hfits
    exact (fits_tdiv_iff hb).1 hfits hedge
  · rintro ⟨h, hq⟩
    have hc : quot? a b = some (Int64.ofInt (a.toInt.tdiv b.toInt)) := by
      rw [quot?, if_neg h.1, ofInt?_of_fits ((fits_tdiv_iff h.1).2 h.2)]
    have hvalue := toInt_ofInt_of_fits ((fits_tdiv_iff h.1).2 h.2)
    rw [fdiv_eq_ite (toInt_ne_zero h.1)] at hq
    rw [floorDiv?, hc, Option.bind_eq_bind, Option.bind_some]
    simp only [mod_ne_zero_iff, lt_zero_iff]
    split_ifs with hcut
    · rw [if_pos hcut] at hq
      exact ofInt?_eq_some_iff.2 (by rw [hq, hvalue]; rfl)
    · rw [if_neg hcut] at hq
      rw [← Int64.ofInt_toInt (x := q), hq]

/-! ## Remainders -/

theorem fits_fmod (hb : b ≠ 0) : Fits (a.toInt.fmod b.toInt) := by
  have hbounds := fits_toInt b
  unfold Fits at hbounds ⊢
  rcases fmod_bounds (a := a.toInt) (toInt_ne_zero hb) with ⟨-, hge, hlt⟩ | ⟨-, hgt, hle⟩
  · omega
  · omega

/-- **Which words have a remainder, and what it is.** The multiple of the divisor must be a word. -/
theorem floorMod?_eq_some_iff : floorMod? a b = some r ↔
    HasQuotient a b ∧ Fits (b.toInt * a.toInt.fdiv b.toInt) ∧ r.toInt = a.toInt.fmod b.toInt := by
  constructor
  · intro h
    simp only [floorMod?, Option.bind_eq_bind, Option.bind_eq_some_iff] at h
    obtain ⟨q, hq, p, hp, hr⟩ := h
    obtain ⟨hquot, hq⟩ := floorDiv?_eq_some_iff.1 hq
    have hp : p.toInt = q.toInt * b.toInt := ofInt?_eq_some_iff.1 hp
    have hr : r.toInt = a.toInt - p.toInt := ofInt?_eq_some_iff.1 hr
    rw [hq, mul_comm] at hp
    exact ⟨hquot, hp ▸ fits_toInt p, by rw [hr, hp, Int.fmod_def]⟩
  · rintro ⟨hquot, hfits, hr⟩
    have hq := toInt_ofInt_of_fits hquot.fits_fdiv
    have hp := toInt_ofInt_of_fits hfits
    have hmul : mul? (Int64.ofInt (a.toInt.fdiv b.toInt)) b =
        some (Int64.ofInt (b.toInt * a.toInt.fdiv b.toInt)) := by
      rw [mul?, hq, mul_comm, ofInt?_of_fits hfits]
    rw [floorMod?, floorDiv?_eq_some_iff.2 ⟨hquot, hq⟩]
    simp only [Option.bind_eq_bind, Option.bind_some, hmul]
    exact ofInt?_eq_some_iff.2 (by rw [hr, hp, Int.fmod_def])

/-- **When the multiple lies beyond the words**: where the dividend is nearer to their end than the
remainder is large. -/
theorem not_fits_multiple_iff (hb : b ≠ 0) : ¬Fits (b.toInt * a.toInt.fdiv b.toInt) ↔
    (0 < b.toInt ∧ a.toInt - a.toInt.fmod b.toInt < -0x8000000000000000) ∨
    (b.toInt < 0 ∧ 0x8000000000000000 ≤ a.toInt - a.toInt.fmod b.toInt) := by
  have ha := fits_toInt a
  have hmul : b.toInt * a.toInt.fdiv b.toInt = a.toInt - a.toInt.fmod b.toInt := by
    have := Int.mul_fdiv_add_fmod a.toInt b.toInt
    omega
  rw [hmul]
  unfold Fits at ha ⊢
  rcases fmod_bounds (a := a.toInt) (toInt_ne_zero hb) with ⟨hpos, hge, -⟩ | ⟨hneg, -, hle⟩
  · omega
  · omega

end Word

end LoopNest
