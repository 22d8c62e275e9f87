import LoopNest.Decimal.Layout
import LoopNest.Proofs.Doubles
import LoopNest.Proofs.PrintedLiterals
import Mathlib.Algebra.Order.Field.Power
import Mathlib.Data.Rat.Cast.Order
import Mathlib.Tactic.FieldSimp

/-!
# Doubles by their texts

The text of a finite double is a sign, digits, digits behind a point and an exponent. These parts
can be told from the text, and the number that they denote is the shortest decimal of the double. So
two doubles have the same text only if they are the same, whatever the layout.

* `Decimal.Parts`, `Decimal.Parts.text`, `Decimal.Parts.value`: a written number;
* `Decimal.Writes`, **`Decimal.Layout.exists_parts`**: what a layout writes is the number;
* **`Decimal.Parts.text_injective`**: the parts of a text;
* **`Decimal.Layout.text_injective`**: the text of a double tells which it is.
-/

namespace LoopNest.Decimal

/-! ## Written numbers -/

/-- A decimal number as it is written, without a sign. -/
structure Parts where
  /-- The digits before the point. -/
  whole : List Char
  /-- The digits behind the point; there is no point if there are none. -/
  places : List Char
  /-- The exponent, if there is one. -/
  power : Option Int

/-- The sign of a number. -/
def signText (negative : Bool) : List Char := if negative then ['-'] else []

namespace Parts

/-- A point with digits, if there are digits. -/
def pointText (places : List Char) : List Char := if places = [] then [] else '.' :: places

/-- An exponent, if there is one. -/
def powerText (plus : String) : Option Int → List Char
  | none => []
  | some e => 'e' :: ((if e < 0 then "-" else plus).toList ++ Nat.toDigits 10 e.natAbs)

/-- The text of a number. -/
def text (plus : String) (q : Parts) : List Char :=
  q.whole ++ (pointText q.places ++ powerText plus q.power)

/-- The number. -/
def value (q : Parts) : ℚ :=
  Nat.ofDigitChars 10 (q.whole ++ q.places) 0 * 10 ^ (q.power.getD 0 - q.places.length : ℤ)

/-- There are digits before the point, with no zero to begin with unless it is all; and there is a
point or an exponent. -/
structure WellFormed (q : Parts) : Prop where
  nonempty : q.whole ≠ []
  digits : ∀ c ∈ q.whole ++ q.places, c.isDigit = true
  leading : q.whole = ['0'] ∨ q.whole.head? ≠ some '0'
  marked : q.places ≠ [] ∨ q.power ≠ none

end Parts

/-! ## What a layout writes -/

theorem digits_toDigits (n : Nat) : ∀ c ∈ Nat.toDigits 10 n, c.isDigit = true :=
  fun _ h => Nat.isDigit_of_mem_toDigits (by decide) (by decide) h

theorem digits_replicate (n : Nat) : ∀ c ∈ List.replicate n '0', c.isDigit = true := by
  intro c hc
  rw [List.eq_of_mem_replicate hc]
  rfl

/-- A positive number does not begin with a zero. -/
theorem head_toDigits_ne_zero {n : Nat} (h : 0 < n) : (Nat.toDigits 10 n).head? ≠ some '0' := by
  induction n using Nat.strongRecOn with
  | _ n ih =>
    rw [Nat.toDigits_eq_if (by decide)]
    split
    · next hn =>
      have hall : ∀ m < 10, 0 < m → [Nat.digitChar m].head? ≠ some '0' := by decide
      exact hall n hn h
    · next hn =>
      rw [List.head?_append_of_ne_nil _ Nat.toDigits_ne_nil]
      exact ih (n / 10) (by omega) (by omega)

/-- The text is that of a number whose digits are `ds`, the first of them standing for `10 ^ e`. -/
def Writes (plus : String) (ds : List Char) (e : Int) (cs : List Char) : Prop :=
  ∃ q : Parts, q.WellFormed ∧ cs = q.text plus ∧
    q.value = Nat.ofDigitChars 10 ds 0 * 10 ^ (e + 1 - ds.length : ℤ)

namespace Layout

section

variable {ds : List Char} (hdigits : ∀ c ∈ ds, c.isDigit = true) (hds : ds ≠ [])
  (hleading : ds.head? ≠ some '0') (plus : String) {e : Int}

include hdigits hds

/-- Zeros between the point and the digits. -/
theorem writes_zeros (he : e < 0) :
    Writes plus ds e ('0' :: '.' :: List.replicate (-e - 1).toNat '0' ++ ds) := by
  refine ⟨⟨['0'], List.replicate (-e - 1).toNat '0' ++ ds, none⟩, ⟨?_, ?_, .inl rfl, ?_⟩, ?_, ?_⟩
  · simp
  · have hzeros := List.forall_mem_append.2 ⟨digits_replicate (-e - 1).toNat, hdigits⟩
    exact List.forall_mem_append.2 ⟨digits_replicate 1, hzeros⟩
  · simp [hds]
  · simp [Parts.text, Parts.pointText, Parts.powerText, hds]
  · have hvalue : Nat.ofDigitChars 10 (['0'] ++ (List.replicate (-e - 1).toNat '0' ++ ds)) 0 =
        Nat.ofDigitChars 10 ds 0 := by
      simp [Nat.ofDigitChars_append, Nat.ofDigitChars_cons]
    have hpower : (none.getD 0 - (List.replicate (-e - 1).toNat '0' ++ ds).length : ℤ) =
        e + 1 - ds.length := by
      simp only [List.length_append, List.length_replicate, Option.getD_none]
      omega
    rw [Parts.value, hvalue, hpower]

include hleading

/-- Zeros between the digits and the point. -/
theorem writes_padded (he : ¬e < 0) (hle : ds.length ≤ (e + 1).toNat) : Writes plus ds e
    (ds ++ List.replicate ((e + 1).toNat - ds.length) '0' ++ ['.', '0']) := by
  obtain ⟨k, hk⟩ : ∃ k : Nat, e + 1 - ds.length = k := ⟨(e + 1).toNat - ds.length, by omega⟩
  have hcount : (e + 1).toNat - ds.length = k := by omega
  unfold Writes
  rw [hcount, hk]
  refine ⟨⟨ds ++ List.replicate k '0', ['0'], none⟩, ⟨?_, ?_, .inr ?_, ?_⟩, ?_, ?_⟩
  · simp [hds]
  · have hpadded := List.forall_mem_append.2 ⟨hdigits, digits_replicate k⟩
    exact List.forall_mem_append.2 ⟨hpadded, digits_replicate 1⟩
  · rwa [List.head?_append_of_ne_nil _ hds]
  · simp
  · simp [Parts.text, Parts.pointText, Parts.powerText]
  · have hvalue : Nat.ofDigitChars 10 (ds ++ List.replicate k '0' ++ ['0']) 0 =
        10 * (10 ^ k * Nat.ofDigitChars 10 ds 0) := by
      simp [Nat.ofDigitChars_append, Nat.ofDigitChars_cons]
    have hpower : (none.getD 0 - ['0'].length : ℤ) = -1 := rfl
    rw [Parts.value, hvalue, hpower, zpow_neg_one, zpow_natCast]
    push_cast
    ring

/-- The point among the digits. -/
theorem writes_split (he : ¬e < 0) (hlt : (e + 1).toNat < ds.length) :
    Writes plus ds e (ds.take (e + 1).toNat ++ '.' :: ds.drop (e + 1).toNat) := by
  have hwhole : 0 < (e + 1).toNat := by omega
  have hdrop : ds.drop (e + 1).toNat ≠ [] := by simpa using hlt
  refine ⟨⟨ds.take (e + 1).toNat, ds.drop (e + 1).toNat, none⟩,
    ⟨?_, ?_, .inr ?_, .inl hdrop⟩, ?_, ?_⟩
  · simp [hds, hwhole.ne']
  · rwa [List.take_append_drop]
  · rwa [List.head?_take, if_neg hwhole.ne']
  · simp [Parts.text, Parts.pointText, Parts.powerText, hdrop]
  · have hpower : (none.getD 0 - (ds.drop (e + 1).toNat).length : ℤ) = e + 1 - ds.length := by
      simp only [List.length_drop, Option.getD_none]
      omega
    rw [Parts.value, List.take_append_drop, hpower]

/-- A number without an exponent. -/
theorem writes_positional : Writes plus ds e (positional ds e) := by
  unfold positional
  by_cases he : e < 0
  · rw [if_pos he]
    exact writes_zeros hdigits hds plus he
  · rw [if_neg he]
    dsimp only
    by_cases hle : ds.length ≤ (e + 1).toNat
    · rw [if_pos hle]
      exact writes_padded hdigits hds hleading plus he hle
    · rw [if_neg hle]
      exact writes_split hdigits hds hleading plus he (by omega)

/-- A number with an exponent. -/
theorem writes_scientific (l : Layout) : Writes l.plus ds e (l.scientific ds e) := by
  refine ⟨⟨ds.take 1, ds.drop 1, some e⟩, ⟨?_, ?_, .inr ?_, .inr ?_⟩, ?_, ?_⟩
  · simp [hds]
  · rwa [List.take_append_drop]
  · cases ds <;> simp_all
  · simp
  · unfold scientific
    simp only [Parts.text, Parts.pointText, Parts.powerText, List.isEmpty_iff, List.append_assoc]
  · have hlength : 0 < ds.length := List.length_pos_iff.2 hds
    have hpower : ((some e).getD 0 - (ds.drop 1).length : ℤ) = e + 1 - ds.length := by
      simp only [List.length_drop, Option.getD_some]
      omega
    rw [Parts.value, List.take_append_drop, hpower]

end

/-- **What a layout writes is the number.** -/
theorem exists_parts (l : Layout) {digits : Nat} (h : 0 < digits) (power : Int) :
    ∃ q : Parts, q.WellFormed ∧ l.number digits power = q.text l.plus ∧
      q.value = digits * 10 ^ power := by
  have hdigits := digits_toDigits digits
  have hds : Nat.toDigits 10 digits ≠ [] := Nat.toDigits_ne_nil
  have hleading := head_toDigits_ne_zero h
  have hwrites : Writes l.plus (Nat.toDigits 10 digits)
      ((Nat.toDigits 10 digits).length + power - 1) (l.number digits power) := by
    unfold number
    dsimp only
    split
    · exact writes_positional hdigits hds hleading l.plus
    · exact writes_scientific hdigits hds hleading l
  obtain ⟨q, hq, htext, hqvalue⟩ := hwrites
  have hpower : ((Nat.toDigits 10 digits).length + power - 1) + 1 -
      (Nat.toDigits 10 digits).length = power := by omega
  rw [Nat.ofDigitChars_ten_toDigits, hpower] at hqvalue
  exact ⟨q, hq, htext, hqvalue⟩

end Layout

/-! ## Reading the parts -/

namespace Parts

/-- What stands behind digits. -/
def stops (c : Char) : Bool := !c.isDigit

/-- What stands behind digits after a point, or in the place of a point. -/
def ends (c : Char) : Bool := stops c && c ≠ '.'

theorem not_stops_of_digits {ds : List Char} (h : ∀ c ∈ ds, c.isDigit = true) :
    ∀ c ∈ ds, stops c = false := by
  intro c hc
  rw [stops, h c hc]
  rfl

theorem stops_of_ends {cs : List Char} (h : BeginsWith ends cs) : BeginsWith stops cs := by
  obtain ⟨c, cs, rfl, hc⟩ := h
  rw [ends, Bool.and_eq_true] at hc
  exact ⟨c, cs, rfl, hc.1⟩

theorem stops_pointText {as r : List Char} (hr : BeginsWith ends r) :
    BeginsWith stops (pointText as ++ r) := by
  unfold pointText
  split
  · exact stops_of_ends hr
  · exact ⟨'.', _, rfl, rfl⟩

/-- The digits behind the point. -/
theorem pointText_append_inj {as bs r s : List Char} (ha : ∀ c ∈ as, c.isDigit = true)
    (hb : ∀ c ∈ bs, c.isDigit = true) (hr : BeginsWith ends r) (hs : BeginsWith ends s)
    (h : pointText as ++ r = pointText bs ++ s) : as = bs ∧ r = s := by
  have hpoint : ∀ {r : List Char}, BeginsWith ends r → ∀ cs, r ≠ '.' :: cs := by
    rintro r ⟨c, rest, rfl, hc⟩ cs h
    obtain ⟨rfl, -⟩ := List.cons.inj h
    exact absurd hc (by decide)
  unfold pointText at h
  by_cases has : as = []
  · by_cases hbs : bs = []
    · rw [if_pos has, if_pos hbs] at h
      exact ⟨has.trans hbs.symm, h⟩
    · rw [if_pos has, if_neg hbs] at h
      exact absurd h (hpoint hr _)
  · by_cases hbs : bs = []
    · rw [if_neg has, if_pos hbs] at h
      exact absurd h.symm (hpoint hs _)
    · rw [if_neg has, if_neg hbs] at h
      exact append_inj_of_stop (not_stops_of_digits ha) (not_stops_of_digits hb)
        (stops_of_ends hr) (stops_of_ends hs) (List.cons.inj h).2

section

variable {plus : String} (hplus : ∀ c ∈ plus.toList, c.isDigit = false ∧ c ≠ '-')

include hplus

theorem powerText_injective {a b : Option Int} (h : powerText plus a = powerText plus b) :
    a = b := by
  have hsign : ∀ e : Int, ∀ c ∈ (if e < 0 then "-" else plus).toList, c.isDigit = false := by
    intro e c hc
    split at hc
    · obtain rfl := List.mem_singleton.1 hc
      rfl
    · exact (hplus c hc).1
  have hdigits : ∀ n, BeginsWith Char.isDigit (Nat.toDigits 10 n) := by
    intro n
    obtain ⟨d, ds, hds⟩ := List.exists_cons_of_ne_nil (Nat.toDigits_ne_nil (n := n) (b := 10))
    exact ⟨d, ds, hds, digits_toDigits n d (hds ▸ List.mem_cons_self)⟩
  have hminus : "-".toList ≠ plus.toList := fun h =>
    (hplus '-' (h ▸ List.mem_singleton_self _)).2 rfl
  cases a with
  | none =>
    cases b with
    | none => rfl
    | some b => exact nomatch h
  | some a =>
    cases b with
    | none => exact nomatch h
    | some b =>
      obtain ⟨hsigns, habs⟩ := append_inj_of_stop (hsign a) (hsign b) (hdigits _) (hdigits _)
        (List.cons.inj h).2
      have hnat := toDigits_injective (by decide) (by decide) habs
      by_cases ha : a < 0
      · by_cases hb : b < 0
        · exact congrArg some (by omega)
        · rw [if_pos ha, if_neg hb] at hsigns
          exact absurd hsigns hminus
      · by_cases hb : b < 0
        · rw [if_neg ha, if_pos hb] at hsigns
          exact absurd hsigns.symm hminus
        · exact congrArg some (by omega)

/-- **The parts of a text.** -/
theorem text_injective {q r : Parts} (hq : q.WellFormed) (hr : r.WellFormed)
    (h : q.text plus = r.text plus) : q = r := by
  -- A blank at the end stands for what follows, so that each part has something behind it.
  have hends : ∀ e, BeginsWith ends (powerText plus e ++ [' ']) := by
    rintro (_ | e)
    · exact ⟨' ', [], rfl, rfl⟩
    · exact ⟨'e', _, rfl, rfl⟩
  have hblank := congrArg (· ++ [' ']) h
  simp only [text, List.append_assoc] at hblank
  obtain ⟨hqwhole, hqplaces⟩ := List.forall_mem_append.1 hq.digits
  obtain ⟨hrwhole, hrplaces⟩ := List.forall_mem_append.1 hr.digits
  obtain ⟨hwhole, hblank⟩ := append_inj_of_stop (not_stops_of_digits hqwhole)
    (not_stops_of_digits hrwhole) (stops_pointText (hends _)) (stops_pointText (hends _)) hblank
  obtain ⟨hplaces, hblank⟩ := pointText_append_inj hqplaces hrplaces (hends _) (hends _) hblank
  have hpower := powerText_injective hplus (List.append_cancel_right hblank)
  cases q
  cases r
  simp only at hwhole hplaces hpower
  rw [hwhole, hplaces, hpower]

end

end Parts

theorem Parts.WellFormed.beginsWith {q : Parts} (hq : q.WellFormed) (plus : String) :
    BeginsWith Char.isDigit (q.text plus) := by
  obtain ⟨d, ds, hds⟩ := List.exists_cons_of_ne_nil hq.nonempty
  refine ⟨d, _, by rw [Parts.text, hds, List.cons_append], hq.digits d ?_⟩
  rw [hds]
  exact List.mem_cons_self

/-- A sign in front of digits. -/
theorem signText_append_inj {a b : Bool} {r s : List Char} (hr : BeginsWith Char.isDigit r)
    (hs : BeginsWith Char.isDigit s) (h : signText a ++ r = signText b ++ s) : a = b ∧ r = s := by
  have hsign : ∀ a, ∀ c ∈ signText a, c.isDigit = false := by decide
  obtain ⟨hsigns, hrest⟩ := append_inj_of_stop (hsign a) (hsign b) hr hs h
  refine ⟨?_, hrest⟩
  cases a <;> cases b <;> first | rfl | exact nomatch hsigns

namespace Layout

/-- The text of a double, and the number that it denotes. -/
theorem exists_parts_text (l : Layout) (x : Binary64) : ∃ q : Parts, q.WellFormed ∧
    (l.text x).toList = signText x.sign ++ q.text l.plus ∧
    (x.isZero = true → q.value = 0) ∧
    (x.isZero = false → ∃ n : Nat, x.neighbourhood.contains n = true ∧
      q.value = n * 10 ^ (-1076 : Int)) := by
  unfold text
  cases hx : x.isZero with
  | true =>
    refine ⟨⟨['0'], ['0'], none⟩, ⟨by decide, by decide, .inl rfl, .inl (by decide)⟩, ?_, ?_, nofun⟩
    · simp [Parts.text, Parts.pointText, Parts.powerText, signText]
    · intro _
      simp [Parts.value, Nat.ofDigitChars_cons]
  | false =>
    obtain ⟨d, p, hshortest, hcontains⟩ := Binary64.exists_shortest hx l.tie
    have hpos : 0 < d := Nat.pos_of_mul_pos_right (Binary64.pos_of_contains hx hcontains)
    obtain ⟨q, hq, htext, hvalue⟩ := l.exists_parts hpos (p - 1076)
    refine ⟨q, hq, ?_, nofun, fun _ => ⟨d * 10 ^ p, hcontains, ?_⟩⟩
    · rw [hshortest, ← htext]
      simp [signText]
    · rw [hvalue, sub_eq_add_neg, zpow_add₀ (by decide), zpow_natCast, ← mul_assoc, Nat.cast_mul,
        Nat.cast_pow, Nat.cast_ofNat]

/-- **The text of a double tells which it is.** -/
theorem text_injective {l : Layout} (hplus : ∀ c ∈ l.plus.toList, c.isDigit = false ∧ c ≠ '-') :
    Function.Injective l.text := by
  intro x y h
  obtain ⟨q, hq, hx, hxzero, hxvalue⟩ := l.exists_parts_text x
  obtain ⟨r, hr, hy, hyzero, hyvalue⟩ := l.exists_parts_text y
  rw [h, hy] at hx
  obtain ⟨hsign, hparts⟩ := signText_append_inj (hr.beginsWith _) (hq.beginsWith _) hx
  obtain rfl := Parts.text_injective hplus hr hq hparts
  have hunit : (10 : ℚ) ^ (-1076 : Int) ≠ 0 := zpow_ne_zero _ (by decide)
  have hnonzero : ∀ z : Binary64, z.isZero = false → ∀ n : Nat, z.neighbourhood.contains n = true →
      (n * 10 ^ (-1076 : Int) : ℚ) ≠ 0 := by
    intro z hz n hn
    have hpos := Binary64.pos_of_contains hz hn
    exact mul_ne_zero (Nat.cast_ne_zero.2 hpos.ne') hunit
  cases hx : x.isZero with
  | true =>
    cases hy : y.isZero with
    | true => exact Binary64.eq_of_isZero hsign.symm hx hy
    | false =>
      obtain ⟨n, hn, hvalue⟩ := hyvalue hy
      exact absurd (hvalue.symm.trans (hxzero hx)) (hnonzero y hy n hn)
  | false =>
    obtain ⟨m, hm, hvalue⟩ := hxvalue hx
    cases hy : y.isZero with
    | true => exact absurd (hvalue.symm.trans (hyzero hy)) (hnonzero x hx m hm)
    | false =>
      obtain ⟨n, hn, hvalue'⟩ := hyvalue hy
      have hcast := mul_right_cancel₀ hunit (hvalue.symm.trans hvalue')
      obtain rfl : m = n := Nat.cast_injective hcast
      exact Binary64.eq_of_contains hsign.symm hm hn

end Layout

end LoopNest.Decimal
