import LoopNest.Proofs.JsonText

/-!
# The grammar of JSON

Which texts spell a value: blanks around tokens, escapes in strings and the form of numbers are
free. Every text that spells a value is read as that value, and two steps of reading for each
character are enough. Both forms in which values are written spell them.

* `Json.Phrase`, `Json.Spells`: the grammar;
* **`Json.Spells.read`**, **`Json.read?_of_spells`**: what is spelled is read;
* `Json.Spelled`: a value whose decimal numbers are spelled as numbers;
* **`Json.spells_pretty`**, **`Json.spells_compact`**: written values spell themselves;
* **`Json.read?_pretty`**: a written value is read back.
-/

namespace LoopNest.Json

open Decimal

/-! ## The grammar -/

/-- What a text may spell: a value, the items of a list, or the fields of an object. -/
inductive Phrase where
  | value (v : Json)
  | items (vs : List Json)
  | fields (fs : List (Option String × Json))

/-- **The grammar of JSON.** There is at least one item, and at least one field, in a phrase; lists
and objects without any are values of their own. -/
inductive Spells : Phrase → List Char → Prop
  | null : Spells (.value .null) "null".toList
  | bool (b : Bool) : Spells (.value (.bool b)) (boolText b).toList
  | number (negative : Bool) {ds frac expo : List Char} (hds : IsWhole ds)
    (hfrac : IsFraction frac) (hexpo : IsExponent expo) :
    Spells (.value (numeral negative ds frac expo)) (signText negative ++ (ds ++ (frac ++ expo)))
  | str {ps : List Piece} {cs : List Char} (h : SpellsPieces ps cs) :
    Spells (.value (.str ((join? ps).map String.ofList))) ('"' :: (cs ++ ['"']))
  | emptyArr {b : List Char} (hb : Blanks b) : Spells (.value (.arr [])) ('[' :: (b ++ [']']))
  | arr {vs : List Json} {cs : List Char} (h : Spells (.items vs) cs) :
    Spells (.value (.arr vs)) ('[' :: (cs ++ [']']))
  | emptyObj {b : List Char} (hb : Blanks b) :
    Spells (.value (.obj [])) ('\x7b' :: (b ++ ['\x7d']))
  | obj {fs : List (Option String × Json)} {cs : List Char} (h : Spells (.fields fs) cs) :
    Spells (.value (.obj fs)) ('\x7b' :: (cs ++ ['\x7d']))
  | item {v : Json} {cs : List Char} (h : Spells (.value v) cs) : Spells (.items [v]) cs
  | items {v : Json} {vs : List Json} {cs ds : List Char} (h : Spells (.value v) cs)
    (hs : Spells (.items vs) ds) : Spells (.items (v :: vs)) (cs ++ ',' :: ds)
  | field {k : Option String} {v : Json} {ks cs : List Char} (hk : Spells (.value (.str k)) ks)
    (h : Spells (.value v) cs) : Spells (.fields [(k, v)]) (ks ++ ':' :: cs)
  | fields {k : Option String} {v : Json} {fs : List (Option String × Json)} {ks cs ds : List Char}
    (hk : Spells (.value (.str k)) ks) (h : Spells (.value v) cs) (hs : Spells (.fields fs) ds) :
    Spells (.fields ((k, v) :: fs)) (ks ++ ':' :: (cs ++ ',' :: ds))
  | blanks {p : Phrase} {b cs e : List Char} (hb : Blanks b) (he : Blanks e) (h : Spells p cs) :
    Spells p (b ++ (cs ++ e))

/-! ## What is spelled is read -/

/-- A key is a string literal between blanks. -/
theorem Spells.key {k : Option String} {ks : List Char} (h : Spells (.value (.str k)) ks) :
    ∃ b body e, Blanks b ∧ Blanks e ∧ ks = b ++ ('"' :: (body ++ e)) ∧
      ∀ rest, literal (body ++ rest) = some (k, rest) := by
  generalize hp : Phrase.value (.str k) = p at h
  induction h with
  | @str ps cs h =>
    obtain ⟨⟩ := hp
    refine ⟨[], cs ++ ['"'], [], blanks_nil, blanks_nil, by simp, fun rest => ?_⟩
    rw [List.append_assoc]
    exact literal_of_spells h rest
  | number negative hds hfrac hexpo =>
    unfold numeral at hp
    split at hp <;> simp at hp
  | @blanks p b cs e hb he h ih =>
    obtain ⟨b', body, e', hb', he', rfl, hbody⟩ := ih hp
    refine ⟨b ++ b', body, e' ++ e, List.forall_mem_append.2 ⟨hb, hb'⟩,
      List.forall_mem_append.2 ⟨he', he⟩, by simp, hbody⟩
  | null | bool | emptyArr | arr | emptyObj | obj | item | items | field | fields => simp at hp

theorem Spells.skip_key {k : Option String} {ks : List Char} (h : Spells (.value (.str k)) ks) :
    ∃ tail, skip ks = '"' :: tail := by
  obtain ⟨b, body, e, hb, -, rfl, -⟩ := h.key
  exact ⟨_, (skip_append hb _).trans (skip_cons rfl _)⟩

/-- What reading makes of a phrase, whatever follows it. Blanks behind a value are left. -/
def Phrase.Read : Phrase → List Char → Prop
  | .value v, cs => (∃ c tail, skip cs = c :: tail ∧ c ≠ ']') ∧
    ∀ fuel rest, 2 * cs.length ≤ fuel → Stops rest →
      ∃ e, Blanks e ∧ Json.value fuel (cs ++ rest) = some (v, e ++ rest)
  | .items vs, cs => (∃ c tail, skip cs = c :: tail ∧ c ≠ ']') ∧
    ∀ fuel e rest, 2 * cs.length < fuel → Blanks e →
      Json.items fuel (cs ++ (e ++ ']' :: rest)) = some (vs, rest)
  | .fields fs, cs => (∃ tail, skip cs = '"' :: tail) ∧
    ∀ fuel e rest, 2 * cs.length < fuel → Blanks e →
      Json.fields fuel (cs ++ (e ++ '\x7d' :: rest)) = some (fs, rest)

theorem skip_append_of_cons {cs tail : List Char} {c : Char} (h : skip cs = c :: tail)
    (rest : List Char) : skip (cs ++ rest) = c :: (tail ++ rest) := by
  unfold skip at h ⊢
  rw [List.dropWhile_append, h]
  simp

/-- Blanks in front of a bracket or a comma do not go on with a number. -/
theorem Blanks.stops {e : List Char} (he : Blanks e) {rest : List Char} (hrest : Stops rest) :
    Stops (e ++ rest) := by
  have hall : ∀ d, isSpace d = true → continues d = false := by
    intro d hd
    simp only [isSpace, Bool.or_eq_true, decide_eq_true_eq] at hd
    rcases hd with ((rfl | rfl) | rfl) | rfl <;> rfl
  cases e with
  | nil => exact hrest
  | cons d ds => exact stops_cons (hall d (he d List.mem_cons_self)) _

section

variable {v : Json} {vs : List Json} {k : Option String} {fs : List (Option String × Json)}
  {ks cs ds : List Char}

/-- A text is read if it begins with a character of its own and a step reads the rest. -/
theorem Phrase.read_of_cons {c : Char} (hspace : isSpace c = false) (hclose : c ≠ ']')
    (h : ∀ fuel rest, 2 * cs.length < fuel → Stops rest →
      Json.value (fuel + 1) (c :: (cs ++ rest)) = some (v, rest)) :
    (Phrase.value v).Read (c :: cs) := by
  refine ⟨⟨c, cs, skip_cons hspace cs, hclose⟩, fun fuel rest hfuel hrest => ⟨[], blanks_nil, ?_⟩⟩
  rw [List.length_cons] at hfuel
  obtain ⟨f, rfl⟩ : ∃ f, fuel = f + 1 := ⟨fuel - 1, by omega⟩
  exact h f rest (by omega) hrest

/-- A number begins with a digit or a minus, as no other value does. -/
theorem Phrase.read_of_number {c : Char} (hc : c.isDigit = true ∨ c = '-')
    (h : ∀ rest, Stops rest → Json.number (c :: (cs ++ rest)) = some (v, rest)) :
    (Phrase.value v).Read (c :: cs) := by
  -- Blanks, a closing bracket and the first characters of all other values.
  have hall : ∀ d ∈ [' ', '\t', '\n', '\r', ']', 'n', 't', 'f', '"', '[', '\x7b'],
      ¬(d.isDigit = true ∨ d = '-') := by decide
  have hne : ∀ d ∈ [' ', '\t', '\n', '\r', ']', 'n', 't', 'f', '"', '[', '\x7b'], c ≠ d :=
    fun d hd h => hall d hd (h ▸ hc)
  have hspace : isSpace c = false := by
    simp [isSpace, hne _]
  refine read_of_cons hspace (hne _ (by decide)) fun fuel rest _ hrest => ?_
  rw [Json.value, skip_cons hspace]
  split
  case h_7 => exact h rest hrest
  all_goals
    next heq => exact absurd (List.cons.inj heq).1 (hne _ (by decide))

theorem signText_append (hds : IsDigits ds) (negative : Bool) (rest : List Char) :
    ∃ c cs, signText negative ++ (ds ++ rest) = c :: cs ∧ (c.isDigit = true ∨ c = '-') := by
  cases negative with
  | true => exact ⟨'-', _, rfl, .inr rfl⟩
  | false =>
    obtain ⟨d, ds, rfl⟩ := List.exists_cons_of_ne_nil hds.1
    exact ⟨d, _, rfl, .inl (hds.2 d List.mem_cons_self)⟩

theorem value_bracket {fuel : Nat} {c : Char} {tail : List Char} (hcs : skip cs = c :: tail)
    (hc : c ≠ ']') :
    value (fuel + 1) ('[' :: cs) = (items fuel cs).map fun p => (.arr p.1, p.2) := by
  rw [value, skip_cons rfl]
  simp only
  split
  · next rest h =>
    rw [hcs] at h
    exact absurd (List.cons.inj h).1 hc
  · rw [items_skip]
    exact Option.map_eq_bind.symm

theorem value_brace {fuel : Nat} {c : Char} {tail : List Char} (hcs : skip cs = c :: tail)
    (hc : c ≠ '\x7d') :
    value (fuel + 1) ('\x7b' :: cs) = (fields fuel cs).map fun p => (.obj p.1, p.2) := by
  rw [value, skip_cons rfl]
  simp only
  split
  · next rest h =>
    rw [hcs] at h
    exact absurd (List.cons.inj h).1 hc
  · rw [fields_skip]
    exact Option.map_eq_bind.symm

section

variable {fuel : Nat} {e rest : List Char} (he : Blanks e)

include he

/-- An item is read, and then what stands behind the comma. -/
theorem items_comma (hv : value fuel cs = some (v, e ++ ',' :: rest)) :
    items (fuel + 1) cs = (items fuel rest).map fun p => (v :: p.1, p.2) := by
  rw [items, hv]
  simp only [Option.bind_eq_bind, Option.bind_some]
  rw [skip_append he, skip_cons rfl]
  exact Option.map_eq_bind.symm

/-- The last item is read. -/
theorem items_close (hv : value fuel cs = some (v, e ++ ']' :: rest)) :
    items (fuel + 1) cs = some ([v], rest) := by
  rw [items, hv]
  simp only [Option.bind_eq_bind, Option.bind_some]
  rw [skip_append he, skip_cons rfl]
  rfl

variable (hk : Spells (.value (.str k)) ks)

include hk

/-- A field is read, and then what stands behind the comma. -/
theorem fields_comma (hv : value fuel cs = some (v, e ++ ',' :: rest)) :
    fields (fuel + 1) (ks ++ ':' :: cs) =
      (fields fuel rest).map fun p => ((k, v) :: p.1, p.2) := by
  obtain ⟨b, body, e', hb, he', rfl, hbody⟩ := hk.key
  simp only [List.append_assoc, List.cons_append]
  rw [fields, skip_append hb, skip_cons rfl]
  simp only [hbody, Option.bind_eq_bind, Option.bind_some]
  rw [skip_append he', skip_cons rfl]
  simp only [hv, Option.bind_some]
  rw [skip_append he, skip_cons rfl]
  exact Option.map_eq_bind.symm

/-- The last field is read. -/
theorem fields_close (hv : value fuel cs = some (v, e ++ '\x7d' :: rest)) :
    fields (fuel + 1) (ks ++ ':' :: cs) = some ([(k, v)], rest) := by
  obtain ⟨b, body, e', hb, he', rfl, hbody⟩ := hk.key
  simp only [List.append_assoc, List.cons_append]
  rw [fields, skip_append hb, skip_cons rfl]
  simp only [hbody, Option.bind_eq_bind, Option.bind_some]
  rw [skip_append he', skip_cons rfl]
  simp only [hv, Option.bind_some]
  rw [skip_append he, skip_cons rfl]
  rfl

end

end

/-- **What is spelled is read.** -/
theorem Spells.read {p : Phrase} {cs : List Char} (h : Spells p cs) : p.Read cs := by
  induction h with
  | null => exact Phrase.read_of_cons rfl (by decide) fun _ _ _ _ => rfl
  | bool b =>
    cases b with
    | true => exact Phrase.read_of_cons rfl (by decide) fun _ _ _ _ => rfl
    | false => exact Phrase.read_of_cons rfl (by decide) fun _ _ _ _ => rfl
  | @number negative ds frac expo hds hfrac hexpo =>
    obtain ⟨c, cs, htext, hc⟩ := signText_append hds.1 negative (frac ++ expo)
    rw [htext]
    refine Phrase.read_of_number hc fun rest hrest => ?_
    rw [← List.cons_append, ← htext]
    simpa [List.append_assoc] using number_numeral negative hds hfrac hexpo hrest
  | str h =>
    refine Phrase.read_of_cons rfl (by decide) fun fuel rest _ _ => ?_
    rw [value, skip_cons rfl, List.append_assoc, List.singleton_append]
    simp only [literal_of_spells h, Option.bind_eq_bind, Option.bind_some]
    rfl
  | emptyArr hb =>
    refine Phrase.read_of_cons rfl (by decide) fun fuel rest _ _ => ?_
    rw [value, skip_cons rfl, List.append_assoc, List.singleton_append]
    simp only [skip_append hb]
    rw [skip_cons rfl]
    rfl
  | @arr vs cs h ih =>
    obtain ⟨⟨c, tail, hcs, hc⟩, hitems⟩ := ih
    refine Phrase.read_of_cons rfl (by decide) fun fuel rest hfuel _ => ?_
    rw [List.length_append, List.length_singleton] at hfuel
    rw [List.append_assoc, value_bracket (skip_append_of_cons hcs _) hc]
    have h := hitems fuel [] rest (by omega) blanks_nil
    rw [List.nil_append] at h
    rw [List.singleton_append, h]
    rfl
  | emptyObj hb =>
    refine Phrase.read_of_cons rfl (by decide) fun fuel rest _ _ => ?_
    rw [value, skip_cons rfl, List.append_assoc, List.singleton_append]
    simp only [skip_append hb]
    rw [skip_cons rfl]
    rfl
  | @obj fs cs h ih =>
    obtain ⟨⟨tail, hcs⟩, hfields⟩ := ih
    refine Phrase.read_of_cons rfl (by decide) fun fuel rest hfuel _ => ?_
    rw [List.length_append, List.length_singleton] at hfuel
    rw [List.append_assoc, value_brace (skip_append_of_cons hcs _) (by decide)]
    have h := hfields fuel [] rest (by omega) blanks_nil
    rw [List.nil_append] at h
    rw [List.singleton_append, h]
    rfl
  | @item v cs h ih =>
    refine ⟨ih.1, fun fuel e rest hfuel he => ?_⟩
    obtain ⟨f, rfl⟩ : ∃ f, fuel = f + 1 := ⟨fuel - 1, by omega⟩
    obtain ⟨e', he', hv⟩ := ih.2 f (e ++ ']' :: rest) (by omega) (he.stops (stops_cons rfl rest))
    rw [← List.append_assoc e'] at hv
    exact items_close (List.forall_mem_append.2 ⟨he', he⟩) hv
  | @items v vs cs ds h hs ih ihs =>
    obtain ⟨⟨c, tail, hcs, hc⟩, hvalue⟩ := ih
    refine ⟨⟨c, _, skip_append_of_cons hcs _, hc⟩, fun fuel e rest hfuel he => ?_⟩
    rw [List.length_append, List.length_cons] at hfuel
    obtain ⟨f, rfl⟩ : ∃ f, fuel = f + 1 := ⟨fuel - 1, by omega⟩
    rw [List.append_assoc, List.cons_append]
    obtain ⟨e', he', hv⟩ := hvalue f (',' :: (ds ++ (e ++ ']' :: rest))) (by omega)
      (stops_cons rfl _)
    rw [items_comma he' hv, ihs.2 f e rest (by omega) he]
    rfl
  | @field k v ks cs hk h ihk ih =>
    obtain ⟨tail, htail⟩ := hk.skip_key
    refine ⟨⟨_, skip_append_of_cons htail _⟩, fun fuel e rest hfuel he => ?_⟩
    rw [List.length_append, List.length_cons] at hfuel
    obtain ⟨f, rfl⟩ : ∃ f, fuel = f + 1 := ⟨fuel - 1, by omega⟩
    obtain ⟨e', he', hv⟩ := ih.2 f (e ++ '\x7d' :: rest) (by omega)
      (he.stops (stops_cons rfl rest))
    rw [← List.append_assoc e'] at hv
    rw [List.append_assoc, List.cons_append]
    exact fields_close (List.forall_mem_append.2 ⟨he', he⟩) hk hv
  | @fields k v fs ks cs ds hk h hs ihk ih ihs =>
    obtain ⟨tail, htail⟩ := hk.skip_key
    refine ⟨⟨_, skip_append_of_cons htail _⟩, fun fuel e rest hfuel he => ?_⟩
    simp only [List.length_append, List.length_cons] at hfuel
    obtain ⟨f, rfl⟩ : ∃ f, fuel = f + 1 := ⟨fuel - 1, by omega⟩
    obtain ⟨e', he', hv⟩ := ih.2 f (',' :: (ds ++ (e ++ '\x7d' :: rest))) (by omega)
      (stops_cons rfl _)
    rw [List.append_assoc, List.cons_append, List.append_assoc, List.cons_append,
      fields_comma he' hk hv, ihs.2 f e rest (by omega) he]
    rfl
  | @blanks p b cs e hb he h ih =>
    have hlength : cs.length ≤ (b ++ (cs ++ e)).length := by
      simp only [List.length_append]
      omega
    cases p with
    | value v =>
      obtain ⟨⟨c, tail, hcs, hc⟩, hvalue⟩ := ih
      refine ⟨⟨c, _, (skip_append hb _).trans (skip_append_of_cons hcs _), hc⟩, ?_⟩
      intro fuel rest hfuel hrest
      obtain ⟨e', he', hv⟩ := hvalue fuel (e ++ rest) (by omega) (he.stops hrest)
      refine ⟨e' ++ e, List.forall_mem_append.2 ⟨he', he⟩, ?_⟩
      rw [List.append_assoc, value_blanks hb, List.append_assoc, hv, List.append_assoc]
    | items vs =>
      obtain ⟨⟨c, tail, hcs, hc⟩, hitems⟩ := ih
      refine ⟨⟨c, _, (skip_append hb _).trans (skip_append_of_cons hcs _), hc⟩, ?_⟩
      intro fuel e' rest hfuel he'
      have h := hitems fuel (e ++ e') rest (by omega) (List.forall_mem_append.2 ⟨he, he'⟩)
      rw [List.append_assoc, items_blanks hb, List.append_assoc, ← List.append_assoc e, h]
    | fields fs =>
      obtain ⟨⟨tail, hcs⟩, hfields⟩ := ih
      refine ⟨⟨_, (skip_append hb _).trans (skip_append_of_cons hcs _)⟩, ?_⟩
      intro fuel e' rest hfuel he'
      have h := hfields fuel (e ++ e') rest (by omega) (List.forall_mem_append.2 ⟨he, he'⟩)
      rw [List.append_assoc, fields_blanks hb, List.append_assoc, ← List.append_assoc e, h]

/-- **A text that spells a value is read as that value.** -/
theorem read?_of_spells {v : Json} {s : String} (h : Spells (.value v) s.toList) :
    read? s = some v := by
  obtain ⟨e, he, hv⟩ := h.read.2 (2 * s.toList.length + 2) [] (by omega) stops_nil
  rw [List.append_nil, List.append_nil] at hv
  have hskip : skip e = [] := by
    rw [← List.append_nil e, skip_append he]
    rfl
  rw [read?, hv]
  simp only [Option.bind_eq_bind, Option.bind_some, hskip]
  rfl

/-! ## Written values -/

/-- A text is spelled as a number with a point or an exponent. -/
def IsDecimal (s : String) : Prop :=
  ∃ (negative : Bool) (q : Parts), q.WellFormed ∧ s.toList = signText negative ++ q.text "+"

/-- A value whose decimal numbers are spelled as numbers. -/
inductive Spelled : Json → Prop
  | null : Spelled .null
  | bool (b : Bool) : Spelled (.bool b)
  | int (n : Int) : Spelled (.int n)
  | decimal {s : String} (h : IsDecimal s) : Spelled (.decimal s)
  | str (s : Option String) : Spelled (.str s)
  | arr {items : List Json} (h : ∀ v ∈ items, Spelled v) : Spelled (.arr items)
  | obj {fields : List (Option String × Json)} (h : ∀ f ∈ fields, Spelled f.2) :
    Spelled (.obj fields)

@[simp] theorem spelled_text (s : String) : (text s).Spelled := .str s

@[simp] theorem spelled_int (n : Int) : (int n).Spelled := .int n

@[simp] theorem spelled_bool (b : Bool) : (bool b).Spelled := .bool b

@[simp] theorem spelled_arr_iff {vs : List Json} : (arr vs).Spelled ↔ ∀ v ∈ vs, v.Spelled :=
  ⟨fun h => by cases h with | arr h => exact h, .arr⟩

@[simp] theorem spelled_object_iff {fs : List (String × Json)} :
    (object fs).Spelled ↔ ∀ f ∈ fs, f.2.Spelled := by
  constructor
  · intro h
    cases h with
    | obj h => exact fun f hf => h _ (List.mem_map_of_mem hf)
  · exact fun h => .obj (List.forall_mem_map.2 h)

theorem isWhole_toDigits (n : Nat) : IsWhole (Nat.toDigits 10 n) := by
  refine ⟨⟨Nat.toDigits_ne_nil, digits_toDigits n⟩, ?_⟩
  rcases Nat.eq_zero_or_pos n with rfl | hn
  · exact .inl (Nat.toDigits_zero 10)
  · exact .inr (head_toDigits_ne_zero hn)

/-- An integer spells itself. -/
theorem spells_int (n : Int) : Spells (.value (.int n)) (toString n).toList := by
  have hnumeral : numeral (decide (n < 0)) (Nat.toDigits 10 n.natAbs) [] [] = .int n := by
    unfold numeral
    rw [digitsValue_toDigits, if_pos ⟨rfl, rfl, fun h => by simp at h; omega⟩]
    by_cases hn : n < 0
    · simp [hn, abs_of_neg hn]
    · simp [hn, abs_of_nonneg (Int.not_lt.1 hn)]
  have h := @Spells.number (decide (n < 0)) _ [] [] (isWhole_toDigits n.natAbs) (.inl rfl)
    (.inl rfl)
  rw [hnumeral, List.append_nil, List.append_nil, ← toList_int] at h
  exact h

theorem isFraction_pointText {ds : List Char} (hdigits : ∀ c ∈ ds, c.isDigit = true) :
    IsFraction (Parts.pointText ds) := by
  unfold Parts.pointText
  split_ifs with hds
  · exact .inl rfl
  · exact .inr ⟨ds, ⟨hds, hdigits⟩, rfl⟩

theorem isExponent_powerText (e : Option Int) : IsExponent (Parts.powerText "+" e) := by
  cases e with
  | none => exact .inl rfl
  | some e =>
    refine .inr ⟨'e', (if e < 0 then "-" else "+").toList, Nat.toDigits 10 e.natAbs, .inl rfl,
      .inr ?_, (isWhole_toDigits e.natAbs).1, rfl⟩
    split_ifs
    · exact .inr rfl
    · exact .inl rfl

/-- A decimal number spells itself. -/
theorem spells_decimal {s : String} (h : IsDecimal s) : Spells (.value (.decimal s)) s.toList := by
  obtain ⟨negative, q, hq, hs⟩ := h
  obtain ⟨hwhole, hplaces⟩ := List.forall_mem_append.1 hq.digits
  have hmarked : ¬(Parts.pointText q.places = [] ∧ Parts.powerText "+" q.power = []) := by
    rintro ⟨hpoint, hpower⟩
    rcases hq.marked with hp | hp
    · simp [Parts.pointText, hp] at hpoint
    · obtain ⟨e, he⟩ := Option.ne_none_iff_exists'.1 hp
      simp [Parts.powerText, he] at hpower
  have h := Spells.number negative ⟨⟨hq.nonempty, hwhole⟩, hq.leading⟩
    (isFraction_pointText hplaces) (isExponent_powerText q.power)
  rw [numeral, if_neg fun h => hmarked ⟨h.1, h.2.1⟩] at h
  have htext : s.toList = signText negative ++
      (q.whole ++ (Parts.pointText q.places ++ Parts.powerText "+" q.power)) := hs
  rw [← htext, String.ofList_toList] at h
  exact h

/-- A string literal spells its string. -/
theorem spells_quote (s : Option String) : Spells (.value (.str s)) (quote s).toList := by
  obtain ⟨ps, cs, hps, hquote, hjoin⟩ := quote_spells s
  rw [hquote, ← hjoin]
  exact .str hps

section

variable (sep : String) {b : List Char} (hsep : sep.toList = ',' :: b) (hb : Blanks b)

include hsep hb

/-- Items behind commas and blanks. -/
theorem spells_items {f : Json → String} {vs : List Json}
    (h : ∀ v ∈ vs, Spells (.value v) (f v).toList) (hne : vs ≠ []) :
    Spells (.items vs) (sep.intercalate (vs.map f)).toList := by
  induction vs with
  | nil => exact absurd rfl hne
  | cons v vs ih =>
    obtain ⟨hv, hvs⟩ := List.forall_mem_cons.1 h
    cases vs with
    | nil =>
      rw [List.map_singleton, String.intercalate_singleton]
      exact .item hv
    | cons w vs =>
      have hrest := Spells.items hv (.blanks hb blanks_nil (ih hvs (List.cons_ne_nil _ _)))
      rw [List.map_cons, List.map_cons, String.intercalate_cons_cons]
      simpa [hsep] using hrest

/-- Fields behind commas and blanks, with blanks in front of the values. -/
theorem spells_fields (colon : String) {e : List Char} (hcolon : colon.toList = ':' :: e)
    (he : Blanks e) {f : Json → String} {fs : List (Option String × Json)}
    (h : ∀ p ∈ fs, Spells (.value p.2) (f p.2).toList) (hne : fs ≠ []) :
    Spells (.fields fs)
      (sep.intercalate (fs.map fun p => quote p.1 ++ colon ++ f p.2)).toList := by
  induction fs with
  | nil => exact absurd rfl hne
  | cons p fs ih =>
    obtain ⟨hp, hfs⟩ := List.forall_mem_cons.1 h
    have hvalue := Spells.blanks he blanks_nil hp
    cases fs with
    | nil =>
      rw [List.map_singleton, String.intercalate_singleton]
      simpa [hcolon] using Spells.field (spells_quote p.1) hvalue
    | cons q fs =>
      have hrest := Spells.fields (spells_quote p.1) hvalue
        (.blanks hb blanks_nil (ih hfs (List.cons_ne_nil _ _)))
      rw [List.map_cons, List.map_cons, String.intercalate_cons_cons]
      simpa [hcolon, hsep] using hrest

end

/-! ### On one line -/

theorem compactItems_eq_map (vs : List Json) : compactItems vs = vs.map compact := by
  induction vs with
  | nil => rfl
  | cons v vs ih => rw [compactItems, ih, List.map_cons]

theorem compactFields_eq_map (fs : List (Option String × Json)) :
    compactFields fs = fs.map fun f => quote f.1 ++ ":" ++ f.2.compact := by
  induction fs with
  | nil => rfl
  | cons f fs ih => rw [compactFields, ih, List.map_cons]

/-- **A value on one line spells itself.** -/
theorem spells_compact {v : Json} (hv : v.Spelled) : Spells (.value v) v.compact.toList := by
  induction hv with
  | null => exact .null
  | bool b => exact .bool b
  | int n => exact spells_int n
  | decimal h => exact spells_decimal h
  | str s => exact spells_quote s
  | @arr vs h ih =>
    rw [compact, compactItems_eq_map]
    by_cases hvs : vs = []
    · rw [hvs]
      exact .emptyArr blanks_nil
    · simpa using Spells.arr (spells_items "," rfl blanks_nil ih hvs)
  | @obj fs h ih =>
    rw [compact, compactFields_eq_map]
    by_cases hfs : fs = []
    · rw [hfs]
      exact .emptyObj blanks_nil
    · simpa using Spells.obj (spells_fields "," rfl blanks_nil ":" rfl blanks_nil ih hfs)

/-! ### On many lines -/

theorem prettyItems_eq_map (depth : Nat) (vs : List Json) :
    prettyItems depth vs = vs.map (prettyAt depth) := by
  induction vs with
  | nil => rfl
  | cons v vs ih => rw [prettyItems, ih, List.map_cons]

theorem prettyFields_eq_map (depth : Nat) (fs : List (Option String × Json)) :
    prettyFields depth fs = fs.map fun f => quote f.1 ++ ": " ++ f.2.prettyAt depth := by
  induction fs with
  | nil => rfl
  | cons f fs ih => rw [prettyFields, ih, List.map_cons]

theorem newline_blanks (depth : Nat) : Blanks (newline depth).toList := by
  intro c hc
  rw [newline, String.toList_ofList, List.mem_cons, List.mem_replicate] at hc
  rcases hc with rfl | ⟨-, rfl⟩ <;> rfl

/-- What separates the items of a list on many lines. -/
theorem separator_toList (depth : Nat) :
    ("," ++ newline depth).toList = ',' :: (newline depth).toList := by
  rw [String.toList_append]
  rfl

theorem enclosed_toList (left right : String) (depth : Nat) {ts : List String} (hne : ts ≠ []) :
    (enclosed left right depth ts).toList = left.toList ++ (((newline (depth + 1)).toList ++
      ((("," ++ newline (depth + 1)).intercalate ts).toList ++ (newline depth).toList)) ++
        right.toList) := by
  have hempty : ¬ts.isEmpty = true := by simpa using hne
  rw [enclosed, if_neg hempty]
  simp only [String.toList_append, List.append_assoc]

/-- A value on many lines spells itself, at any depth. -/
theorem Spelled.spells {v : Json} (hv : v.Spelled) (depth : Nat) :
    Spells (.value v) (v.prettyAt depth).toList := by
  induction hv generalizing depth with
  | null => exact .null
  | bool b => exact .bool b
  | int n => exact spells_int n
  | decimal h => exact spells_decimal h
  | str s => exact spells_quote s
  | @arr vs h ih =>
    rw [prettyAt, prettyItems_eq_map]
    by_cases hvs : vs = []
    · rw [hvs, List.map_nil, enclosed, if_pos List.isEmpty_nil]
      exact .emptyArr blanks_nil
    · have hitems := spells_items _ (separator_toList (depth + 1)) (newline_blanks (depth + 1))
        (fun v hv => ih v hv (depth + 1)) hvs
      rw [enclosed_toList _ _ _ (by simpa using hvs)]
      exact .arr (.blanks (newline_blanks (depth + 1)) (newline_blanks depth) hitems)
  | @obj fs h ih =>
    rw [prettyAt, prettyFields_eq_map]
    by_cases hfs : fs = []
    · rw [hfs, List.map_nil, enclosed, if_pos List.isEmpty_nil]
      exact .emptyObj blanks_nil
    · have hblank : Blanks [' '] := by simp [Blanks, isSpace]
      have hfields := spells_fields _ (separator_toList (depth + 1)) (newline_blanks (depth + 1))
        ": " rfl hblank (fun f hf => ih f hf (depth + 1)) hfs
      rw [enclosed_toList _ _ _ (by simpa using hfs)]
      exact .obj (.blanks (newline_blanks (depth + 1)) (newline_blanks depth) hfields)

/-- **A value on many lines spells itself.** -/
theorem spells_pretty {v : Json} (hv : v.Spelled) : Spells (.value v) v.pretty.toList := hv.spells 0

/-- **A written value is read back.** -/
theorem read?_pretty {v : Json} (hv : v.Spelled) : read? v.pretty = some v :=
  read?_of_spells (spells_pretty hv)

end LoopNest.Json
