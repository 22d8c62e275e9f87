import LoopNest.Json.Printer
import LoopNest.Json.Reader
import LoopNest.Proofs.DecimalText

/-!
# The tokens of JSON

Numbers and string literals by the rules of the standard, and what the reader makes of them: it
takes the whole token, whatever follows that does not go on with it, and leaves the rest.

* `Json.IsWhole`, `Json.IsFraction`, `Json.IsExponent`: the parts of a number;
* `Json.numeral`, **`Json.number_numeral`**: the number of given parts, and how it is read;
* `Json.SpellsPieces`, **`Json.literal_of_spells`**: string literals, with all their escapes;
* `Json.Blanks`: blanks between tokens do not matter.
-/

namespace LoopNest.Json

open Decimal

/-! ## Numbers -/

/-- Decimal digits, at least one. -/
def IsDigits (ds : List Char) : Prop := ds ≠ [] ∧ ∀ c ∈ ds, c.isDigit = true

/-- Digits that do not begin with a zero, unless it is all. -/
def IsWhole (ds : List Char) : Prop := IsDigits ds ∧ (ds = ['0'] ∨ ds.head? ≠ some '0')

/-- A point with digits, or nothing. -/
def IsFraction (cs : List Char) : Prop := cs = [] ∨ ∃ ds, IsDigits ds ∧ cs = '.' :: ds

/-- The letter of an exponent with digits, which may have a sign, or nothing. -/
def IsExponent (cs : List Char) : Prop :=
  cs = [] ∨ ∃ m sign ds, (m = 'e' ∨ m = 'E') ∧ (sign = [] ∨ sign = ['+'] ∨ sign = ['-']) ∧
    IsDigits ds ∧ cs = m :: (sign ++ ds)

/-- The number that is written in given parts: an integer if it has neither fraction nor exponent
and is not minus zero. -/
def numeral (negative : Bool) (ds frac expo : List Char) : Json :=
  if frac = [] ∧ expo = [] ∧ (negative = true → digitsValue ds ≠ 0) then
    .int (if negative then -digitsValue ds else digitsValue ds)
  else .decimal (String.ofList (signText negative ++ (ds ++ (frac ++ expo))))

/-- A character that can go on with a number. -/
def continues (c : Char) : Bool := c.isDigit || c = '.' || c = 'e' || c = 'E'

/-- What does not go on with a number. -/
def Stops (rest : List Char) : Prop := ∀ c cs, rest = c :: cs → continues c = false

theorem stops_nil : Stops [] := fun _ _ h => nomatch h

theorem stops_cons {c : Char} (hc : continues c = false) (cs : List Char) : Stops (c :: cs) := by
  rintro d ds h
  obtain ⟨rfl, -⟩ := List.cons.inj h
  exact hc

theorem Stops.not {c : Char} {cs rest : List Char} (h : Stops rest) (hcs : rest = c :: cs) :
    c.isDigit = false ∧ c ≠ '.' ∧ c ≠ 'e' ∧ c ≠ 'E' := by
  have hc := h c cs hcs
  simp only [continues, Bool.or_eq_false_iff, decide_eq_false_iff_not] at hc
  tauto

section

variable {ds frac expo rest : List Char}

theorem digits_append (hds : IsDigits ds) (hrest : ∀ c cs, rest = c :: cs → c.isDigit = false) :
    digits (ds ++ rest) = some (ds, rest) := by
  have hstop : rest.takeWhile Char.isDigit = [] ∧ rest.dropWhile Char.isDigit = rest := by
    cases rest with
    | nil => exact ⟨rfl, rfl⟩
    | cons c cs => simp [hrest c cs rfl]
  have htake : (ds ++ rest).takeWhile Char.isDigit = ds := by
    rw [List.takeWhile_append_of_pos hds.2, hstop.1, List.append_nil]
  have hdrop : (ds ++ rest).dropWhile Char.isDigit = rest := by
    rw [List.dropWhile_append_of_pos hds.2, hstop.2]
  unfold digits
  rw [htake, hdrop, if_neg (by simpa using hds.1)]

theorem whole_append (hds : IsWhole ds) (hrest : ∀ c cs, rest = c :: cs → c.isDigit = false) :
    whole (ds ++ rest) = some (ds, rest) := by
  rcases hds.2 with rfl | hleading
  · rfl
  · unfold whole
    split
    · next tail h =>
      cases ds with
      | nil => exact absurd rfl hds.1.1
      | cons d ds =>
        obtain ⟨rfl, -⟩ := List.cons.inj h
        exact absurd rfl hleading
    · exact digits_append hds.1 hrest

theorem fraction_append (hfrac : IsFraction frac)
    (hrest : ∀ c cs, rest = c :: cs → c.isDigit = false ∧ c ≠ '.') :
    fraction (frac ++ rest) = some (frac, rest) := by
  rcases hfrac with rfl | ⟨ds, hds, rfl⟩
  · rw [List.nil_append]
    unfold fraction
    split
    · next tail => exact absurd rfl (hrest _ _ rfl).2
    · rfl
  · rw [List.cons_append, fraction, digits_append hds fun c cs h => (hrest c cs h).1]
    rfl

theorem exponent_append (hexpo : IsExponent expo) (hrest : Stops rest) :
    exponent (expo ++ rest) = some (expo, rest) := by
  rcases hexpo with rfl | ⟨m, sign, ds, hm, hsign, hds, rfl⟩
  · cases rest with
    | nil => rfl
    | cons c cs =>
      obtain ⟨-, -, hlower, hupper⟩ := hrest.not rfl
      exact if_neg fun h => h.elim hlower hupper
  · have hdigits := digits_append hds fun c cs h => (hrest.not h).1
    rcases hsign with rfl | rfl | rfl
    · -- A digit is no sign.
      obtain ⟨d, ds, rfl⟩ := List.exists_cons_of_ne_nil hds.1
      have hsign : d ≠ '+' ∧ d ≠ '-' := by
        constructor <;> rintro rfl <;> exact absurd (hds.2 _ List.mem_cons_self) (by decide)
      simp only [List.nil_append, List.cons_append] at hdigits ⊢
      rw [exponent, if_pos hm, hdigits]
      · rfl
      · rintro tail ⟨⟩
        exact hsign.1 rfl
      · rintro tail ⟨⟩
        exact hsign.2 rfl
    · unfold exponent
      simp [hm, hdigits]
    · unfold exponent
      simp [hm, hdigits]

/-- What follows the fraction begins with neither a digit nor a point. -/
theorem exponent_head (hexpo : IsExponent expo) (hrest : Stops rest) :
    ∀ c cs, expo ++ rest = c :: cs → c.isDigit = false ∧ c ≠ '.' := by
  intro c cs h
  rcases hexpo with rfl | ⟨m, sign, ds, hm, -, -, rfl⟩
  · exact ⟨(hrest.not h).1, (hrest.not h).2.1⟩
  · obtain ⟨rfl, -⟩ := List.cons.inj h
    rcases hm with rfl | rfl
    · exact ⟨rfl, by decide⟩
    · exact ⟨rfl, by decide⟩

/-- What follows the whole part does not begin with a digit. -/
theorem fraction_head (hfrac : IsFraction frac) (hexpo : IsExponent expo) (hrest : Stops rest) :
    ∀ c cs, frac ++ (expo ++ rest) = c :: cs → c.isDigit = false := by
  intro c cs h
  rcases hfrac with rfl | ⟨ds, -, rfl⟩
  · exact (exponent_head hexpo hrest c cs h).1
  · obtain ⟨rfl, -⟩ := List.cons.inj h
    rfl

/-- A number after its sign. -/
def unsigned (sign cs : List Char) : Option (Json × List Char) := do
  let (ds, cs) ← whole cs
  let (frac, cs) ← fraction cs
  let (expo, cs) ← exponent cs
  let n := digitsValue ds
  if frac.isEmpty && expo.isEmpty && (sign.isEmpty || n != 0) then
    return (.int (if sign.isEmpty then n else -n), cs)
  else return (.decimal (String.ofList (sign ++ ds ++ frac ++ expo)), cs)

theorem number_eq_unsigned (negative : Bool) (hds : IsDigits ds) (rest : List Char) :
    number (signText negative ++ (ds ++ rest)) = unsigned (signText negative) (ds ++ rest) := by
  cases negative with
  | true => rfl
  | false =>
    -- A digit is no minus, so nothing is taken for a sign.
    obtain ⟨d, ds, rfl⟩ := List.exists_cons_of_ne_nil hds.1
    have hd : d ≠ '-' := by
      rintro rfl
      exact absurd (hds.2 '-' List.mem_cons_self) (by decide)
    unfold number signText
    split
    next sign cs h =>
      split at h
      · next tail htail => exact absurd (List.cons.inj htail).1 hd
      · obtain ⟨rfl, rfl⟩ := Prod.mk.inj h
        rfl

/-- **A number is read as its parts say.** -/
theorem number_numeral (negative : Bool) (hds : IsWhole ds) (hfrac : IsFraction frac)
    (hexpo : IsExponent expo) (hrest : Stops rest) :
    number (signText negative ++ (ds ++ (frac ++ (expo ++ rest)))) =
      some (numeral negative ds frac expo, rest) := by
  have hplain : (frac.isEmpty && expo.isEmpty &&
        ((signText negative).isEmpty || digitsValue ds != 0)) = true ↔
      frac = [] ∧ expo = [] ∧ (negative = true → digitsValue ds ≠ 0) := by
    cases negative <;> simp [signText, and_assoc]
  rw [number_eq_unsigned negative hds.1, unsigned,
    whole_append hds (fraction_head hfrac hexpo hrest)]
  simp only [fraction_append hfrac (exponent_head hexpo hrest), exponent_append hexpo hrest,
    Option.bind_eq_bind, Option.bind_some, hplain]
  by_cases hint : frac = [] ∧ expo = [] ∧ (negative = true → digitsValue ds ≠ 0)
  · rw [numeral, if_pos hint, if_pos hint]
    cases negative <;> rfl
  · rw [numeral, if_neg hint, if_neg hint]
    simp

end

theorem digitsValue_toDigits (n : Nat) : digitsValue (Nat.toDigits 10 n) = n := by
  rw [digitsValue, ← Nat.ofDigitChars_eq_foldl, Nat.ofDigitChars_ten_toDigits]

theorem toList_int (n : Int) :
    (toString n).toList = signText (decide (n < 0)) ++ Nat.toDigits 10 n.natAbs := by
  cases n with
  | ofNat m =>
    have hsign : decide (Int.ofNat m < 0) = false := by simp
    rw [hsign]
    exact Nat.toList_repr
  | negSucc m =>
    have hsign : decide (Int.negSucc m < 0) = true := by simp [Int.negSucc_lt_zero]
    have hrepr : toString (Int.negSucc m) = "-" ++ Nat.repr (m + 1) := rfl
    rw [hsign, hrepr, String.toList_append, Nat.toList_repr]
    rfl

/-! ## Strings -/

/-- The pieces of a string literal and their spelling: characters as they are, but for the quote,
the backslash and controls, and escapes by a letter or by a number. -/
inductive SpellsPieces : List Piece → List Char → Prop
  | nil : SpellsPieces [] []
  | plain {c : Char} {ps : List Piece} {cs : List Char} (hquote : c ≠ '"') (hback : c ≠ '\\')
    (hc : ¬c.toNat < 0x20) (h : SpellsPieces ps cs) : SpellsPieces (.char c :: ps) (c :: cs)
  | short {e c : Char} {ps : List Piece} {cs : List Char} (he : shortEscape? e = some c)
    (h : SpellsPieces ps cs) : SpellsPieces (.char c :: ps) ('\\' :: e :: cs)
  | code {a b c d : Char} {n : Nat} {ps : List Piece} {cs : List Char}
    (hn : hexFour? a b c d = some n) (h : SpellsPieces ps cs) :
    SpellsPieces (.ofCode n :: ps) ('\\' :: 'u' :: a :: b :: c :: d :: cs)

/-- Pieces are read up to the closing quote. -/
theorem SpellsPieces.pieces_eq {ps : List Piece} {cs : List Char} (h : SpellsPieces ps cs)
    (rest : List Char) : pieces (cs ++ '"' :: rest) = some (ps, rest) := by
  -- What is left of each case are the patterns of `pieces` that come before the one that applies.
  induction h with
  | nil => rfl
  | plain hquote hback hc h ih =>
    rw [List.cons_append, pieces, if_neg (by simp [hc, hback]), ih]
    · rfl
    · exact hquote
    · rintro a b d f tail rfl
      exact fun _ => hback rfl
    · rintro e tail rfl
      exact fun _ => hback rfl
  | @short e c ps cs he h ih =>
    have hu : e ≠ 'u' := by
      rintro rfl
      simp [shortEscape?] at he
    rw [List.cons_append, List.cons_append, pieces, he, ih]
    · rfl
    · rintro a b d f tail rfl
      exact fun _ => hu rfl
  | code hn h ih =>
    simp only [List.cons_append]
    rw [pieces, hn, ih]
    rfl

/-- **A string literal is read**, whatever its escapes. -/
theorem literal_of_spells {ps : List Piece} {cs : List Char} (h : SpellsPieces ps cs)
    (rest : List Char) :
    literal (cs ++ '"' :: rest) = some ((join? ps).map String.ofList, rest) := by
  rw [literal, h.pieces_eq]
  rfl

/-- A control is escaped by its number. -/
theorem hexFour?_control : ∀ n < 0x20,
    hexFour? '0' '0' (hexDigit (n / 16)) (hexDigit n) = some n ∧
      Piece.ofCode n = .char (Char.ofNat n) := by
  decide

/-- A character is escaped by a letter, by its number, or not at all. -/
theorem escape_cases (c : Char) :
    (∃ e, escape c = ['\\', e] ∧ e ≠ 'u' ∧ shortEscape? e = some c) ∨
    (c.toNat < 0x20 ∧
      escape c = ['\\', 'u', '0', '0', hexDigit (c.toNat / 16), hexDigit c.toNat]) ∨
    (escape c = [c] ∧ c ≠ '"' ∧ c ≠ '\\' ∧ ¬c.toNat < 0x20) := by
  unfold escape
  split_ifs with h₁ h₂ h₃ h₄ h₅ h₆ h₇ h₈
  · exact .inl ⟨_, rfl, by decide, by rw [h₁]; rfl⟩
  · exact .inl ⟨_, rfl, by decide, by rw [h₂]; rfl⟩
  · exact .inl ⟨_, rfl, by decide, by rw [h₃]; rfl⟩
  · exact .inl ⟨_, rfl, by decide, by rw [h₄]; rfl⟩
  · exact .inl ⟨_, rfl, by decide, by rw [h₅]; rfl⟩
  · exact .inl ⟨_, rfl, by decide, by rw [h₆]; rfl⟩
  · exact .inl ⟨_, rfl, by decide, by rw [h₇]; rfl⟩
  · exact .inr (.inl ⟨h₈, rfl⟩)
  · exact .inr (.inr ⟨rfl, h₁, h₂, h₈⟩)

theorem SpellsPieces.escape (c : Char) {ps : List Piece} {cs : List Char} (h : SpellsPieces ps cs) :
    SpellsPieces (.char c :: ps) (Json.escape c ++ cs) := by
  rcases escape_cases c with ⟨e, he, -, hshort⟩ | ⟨hc, he⟩ | ⟨he, hquote, hback, hc⟩
  · rw [he]
    exact .short hshort h
  · obtain ⟨hhex, hcode⟩ := hexFour?_control c.toNat hc
    rw [Char.ofNat_toNat] at hcode
    rw [he, ← hcode]
    exact .code hhex h
  · rw [he]
    exact .plain hquote hback hc h

theorem join?_map_char (cs : List Char) : join? (cs.map Piece.char) = some cs := by
  induction cs with
  | nil => rfl
  | cons c cs ih => rw [List.map_cons, join?, ih, Option.map_some]

/-- A written string is a literal of it. -/
theorem quote_spells (s : Option String) : ∃ ps cs, SpellsPieces ps cs ∧
    (quote s).toList = '"' :: (cs ++ ['"']) ∧ (join? ps).map String.ofList = s := by
  cases s with
  | none =>
    exact ⟨[.ofCode 0xd800], ['\\', 'u', 'd', '8', '0', '0'], .code rfl .nil, rfl, rfl⟩
  | some s =>
    refine ⟨s.toList.map .char, s.toList.flatMap escape, ?_, ?_, ?_⟩
    · induction s.toList with
      | nil => exact .nil
      | cons c cs ih => exact .escape c ih
    · rw [quote, String.toList_ofList]
    · rw [join?_map_char, Option.map_some, String.ofList_toList]

/-! ## Blanks -/

/-- Nothing but blanks. -/
def Blanks (s : List Char) : Prop := ∀ c ∈ s, isSpace c = true

theorem blanks_nil : Blanks [] := List.forall_mem_nil _

/-- Leading blanks do not matter. -/
theorem skip_append {s : List Char} (hs : Blanks s) (cs : List Char) :
    skip (s ++ cs) = skip cs := List.dropWhile_append_of_pos hs

theorem skip_cons {c : Char} (hc : isSpace c = false) (cs : List Char) :
    skip (c :: cs) = c :: cs := by
  unfold skip
  rw [List.dropWhile_cons_of_neg (by simp [hc])]

section

variable {s : List Char} (hs : Blanks s) (fuel : Nat) (cs : List Char)

include hs

theorem value_blanks : value fuel (s ++ cs) = value fuel cs := by
  cases fuel with
  | zero => rfl
  | succ fuel => rw [value, value, skip_append hs]

theorem items_blanks : items fuel (s ++ cs) = items fuel cs := by
  cases fuel with
  | zero => rfl
  | succ fuel => rw [items, items, value_blanks hs]

theorem fields_blanks : fields fuel (s ++ cs) = fields fuel cs := by
  cases fuel with
  | zero => rfl
  | succ fuel => rw [fields, fields, skip_append hs]

end

theorem blanks_skip (cs : List Char) : ∃ b, Blanks b ∧ cs = b ++ skip cs :=
  ⟨cs.takeWhile isSpace, List.all_eq_true.1 List.all_takeWhile,
    (List.takeWhile_append_dropWhile).symm⟩

theorem items_skip (fuel : Nat) (cs : List Char) : items fuel (skip cs) = items fuel cs := by
  obtain ⟨b, hb, hcs⟩ := blanks_skip cs
  rw [← items_blanks hb fuel (skip cs), ← hcs]

theorem fields_skip (fuel : Nat) (cs : List Char) : fields fuel (skip cs) = fields fuel cs := by
  obtain ⟨b, hb, hcs⟩ := blanks_skip cs
  rw [← fields_blanks hb fuel (skip cs), ← hcs]

end LoopNest.Json
