/-!
# Sixty-four-bit words with checked arithmetic

Literals of the index arithmetic are signed words of 64 bits. An operation whose exact result does
not fit has no result; nothing wraps.

* `Word.ofInt?`: the word with a given value;
* `Word.Fits`: the numbers that are values of words;
* `Word.add?`, `Word.sub?`, `Word.mul?`, `Word.quot?`: the exact result, if it is a word;
* `Word.floorDiv?`, `Word.floorMod?`: division toward negative infinity and its remainder;
* **`Word.ofInt?_eq_some_iff`**: a value has a word exactly when that word reads back as the value.
-/

namespace LoopNest

/-- A signed integer of 64 bits. -/
abbrev Word := Int64

namespace Word

/-- The word with value `n`, if `n` fits in 64 bits. -/
def ofInt? (n : Int) : Option Word :=
  if -0x8000000000000000 ≤ n ∧ n < 0x8000000000000000 then some (Int64.ofInt n) else none

/-- **A value has a word exactly when that word reads back as the value.** -/
theorem ofInt?_eq_some_iff {n : Int} {w : Word} : ofInt? n = some w ↔ w.toInt = n := by
  constructor
  · intro h
    unfold ofInt? at h
    split at h
    · next hn =>
      obtain rfl := Option.some.inj h
      exact Int64.toInt_ofInt_of_le (by simpa using hn.1) (by simpa using hn.2)
    · simp at h
  · rintro rfl
    have h1 := w.le_toInt
    have h2 := w.toInt_lt
    rw [ofInt?, if_pos ⟨by simpa using h1, by simpa using h2⟩, Int64.ofInt_toInt]

theorem ofInt?_eq_none_iff {n : Int} :
    ofInt? n = none ↔ ¬(-0x8000000000000000 ≤ n ∧ n < 0x8000000000000000) := by
  unfold ofInt?
  split <;> simp_all

@[simp] theorem ofInt?_toInt (w : Word) : ofInt? w.toInt = some w :=
  ofInt?_eq_some_iff.2 rfl

/-- The number is the value of a word. -/
def Fits (n : Int) : Prop := -0x8000000000000000 ≤ n ∧ n < 0x8000000000000000

instance (n : Int) : Decidable (Fits n) := inferInstanceAs (Decidable (_ ∧ _))

theorem ofInt?_of_fits {n : Int} (h : Fits n) : ofInt? n = some (Int64.ofInt n) := if_pos h

theorem ofInt?_of_not_fits {n : Int} (h : ¬Fits n) : ofInt? n = none := if_neg h

theorem toInt_ofInt_of_fits {n : Int} (h : Fits n) : (Int64.ofInt n).toInt = n :=
  ofInt?_eq_some_iff.1 (ofInt?_of_fits h)

theorem fits_toInt (w : Word) : Fits w.toInt :=
  ⟨by simpa using w.le_toInt, by simpa using w.toInt_lt⟩

/-- What lies between two words is a word. -/
theorem Fits.of_between {a b n : Int} (ha : Fits a) (hb : Fits b) (han : a ≤ n) (hnb : n ≤ b) :
    Fits n := ⟨Int.le_trans ha.1 han, Int.lt_of_le_of_lt hnb hb.2⟩

theorem lt_zero_iff {w : Word} : w < 0 ↔ w.toInt < 0 := by
  rw [Int64.lt_iff_toInt_lt, Int64.toInt_zero]

theorem zero_lt_iff {w : Word} : 0 < w ↔ 0 < w.toInt := by
  rw [Int64.lt_iff_toInt_lt, Int64.toInt_zero]

theorem le_zero_iff {w : Word} : w ≤ 0 ↔ w.toInt ≤ 0 := by
  rw [Int64.le_iff_toInt_le, Int64.toInt_zero]

theorem zero_le_iff {w : Word} : 0 ≤ w ↔ 0 ≤ w.toInt := by
  rw [Int64.le_iff_toInt_le, Int64.toInt_zero]

/-- The sum, if it is a word. -/
def add? (a b : Word) : Option Word := ofInt? (a.toInt + b.toInt)

/-- The difference, if it is a word. -/
def sub? (a b : Word) : Option Word := ofInt? (a.toInt - b.toInt)

/-- The product, if it is a word. -/
def mul? (a b : Word) : Option Word := ofInt? (a.toInt * b.toInt)

/-- The quotient cut toward zero; none for a zero divisor, nor where it is not a word. -/
def quot? (a b : Word) : Option Word :=
  if b = 0 then none else ofInt? (a.toInt.tdiv b.toInt)

/-- The quotient rounded toward negative infinity: the cut quotient, one less where the division is
not exact and the signs differ. -/
def floorDiv? (a b : Word) : Option Word := do
  let q ← quot? a b
  if a % b ≠ 0 ∧ (decide (a < 0) ≠ decide (b < 0)) then sub? q 1 else some q

/-- What `floorDiv?` leaves: `a - q * b`. There is none where the product leaves the words. -/
def floorMod? (a b : Word) : Option Word := do
  let q ← floorDiv? a b
  let p ← mul? q b
  sub? a p

/-- The decimal text of a word. -/
def text (w : Word) : String := toString w.toInt

end Word

end LoopNest
