import LoopNest.C.Printer
import Mathlib.Data.List.Forall2

/-!
# Literals read back from their text

What stands before a character that it cannot hold can be read back from a longer text. Whole
numbers are different if their texts are; quoted texts are different too, and show where they end; a
floating-point literal is spelled in C as its text says.

* **`append_inj_of_stop`**, **`flatMap_append_inj`**: a part and the rest, up to a character that
  the part cannot hold, and parts one after the other;
* **`Word.text_injective`**, `Word.text_chars`: whole numbers;
* **`Text.quote_append_inj`**: quoted texts;
* **`Binary64.textC_eq_of_text_eq`**, `Binary64.text_cases`: floating-point literals.
-/

namespace LoopNest

/-- A property of all characters of a list is decided along the list, not over all characters that
there are. -/
instance (priority := 2000) decidableForallMemChars {p : Char → Prop} [DecidablePred p]
    (l : List Char) : Decidable (∀ c ∈ l, p c) := List.decidableBAll p l

/-! ## Up to a character -/

/-- A text begins with a character of a class. -/
def BeginsWith (p : Char → Bool) (l : List Char) : Prop := ∃ c cs, l = c :: cs ∧ p c = true

/-- **A part that holds no character of a class ends where the first of the class stands.** -/
theorem append_inj_of_stop {p : Char → Bool} {a b r s : List Char} (ha : ∀ c ∈ a, p c = false)
    (hb : ∀ c ∈ b, p c = false) (hr : BeginsWith p r) (hs : BeginsWith p s)
    (h : a ++ r = b ++ s) : a = b ∧ r = s := by
  obtain ⟨c, cs, rfl, hc⟩ := hr
  obtain ⟨d, ds, rfl, hd⟩ := hs
  induction a generalizing b with
  | nil =>
    cases b with
    | nil => exact ⟨rfl, h⟩
    | cons x b =>
      obtain ⟨rfl, -⟩ := List.cons.inj h
      rw [hb c List.mem_cons_self] at hc
      exact nomatch hc
  | cons x a ih =>
    cases b with
    | nil =>
      obtain ⟨rfl, -⟩ := List.cons.inj h
      rw [ha x List.mem_cons_self] at hd
      exact nomatch hd
    | cons y b =>
      obtain ⟨rfl, htail⟩ := List.cons.inj h
      obtain ⟨rfl, hrest⟩ := ih (List.forall_mem_cons.1 ha).2 (List.forall_mem_cons.1 hb).2 htail
      exact ⟨rfl, hrest⟩

section

variable {α : Type} {text : α → List Char} {Same : α → α → Prop} {Tail : List Char → Prop}
  {r s : List Char}

variable (Tail) in
/-- **Items one after the other read back**, if each item does in front of what may follow it, and
none looks like what stands at the end. -/
theorem flatMap_append_inj {as bs : List α} (hr : Tail r) (hs : Tail s)
    (htail : ∀ a q, Tail (text a ++ q))
    (hread : ∀ a ∈ as, ∀ b ∈ bs, ∀ {q q' : List Char}, Tail q → Tail q' →
      text a ++ q = text b ++ q' → Same a b ∧ q = q')
    (has : ∀ a ∈ as, ∀ q, Tail q → text a ++ q ≠ s) (hbs : ∀ b ∈ bs, ∀ q, Tail q → text b ++ q ≠ r)
    (h : as.flatMap text ++ r = bs.flatMap text ++ s) : List.Forall₂ Same as bs ∧ r = s := by
  have hmore : ∀ (as : List α) {q}, Tail q → Tail (as.flatMap text ++ q) := by
    intro as q hq
    cases as with
    | nil => exact hq
    | cons a as =>
      rw [List.flatMap_cons, List.append_assoc]
      exact htail a _
  induction as generalizing bs with
  | nil =>
    cases bs with
    | nil => exact ⟨.nil, h⟩
    | cons b bs =>
      rw [List.flatMap_cons, List.append_assoc] at h
      exact absurd h.symm (hbs b List.mem_cons_self _ (hmore bs hs))
  | cons a as ih =>
    rw [List.flatMap_cons, List.append_assoc] at h
    cases bs with
    | nil => exact absurd h (has a List.mem_cons_self _ (hmore as hr))
    | cons b bs =>
      rw [List.flatMap_cons, List.append_assoc] at h
      obtain ⟨hab, hrest⟩ := hread a List.mem_cons_self b List.mem_cons_self (hmore as hr)
        (hmore bs hs) h
      obtain ⟨hall, htail⟩ := ih
        (fun a ha b hb => hread a (List.mem_cons_of_mem _ ha) b (List.mem_cons_of_mem _ hb))
        (List.forall_mem_cons.1 has).2 (List.forall_mem_cons.1 hbs).2 hrest
      exact ⟨.cons hab hall, htail⟩

end

/-! ## Digits -/

section

variable {b : Nat}

theorem digitChar_inj {d e : Nat} (hd : d < 16) (he : e < 16)
    (h : Nat.digitChar d = Nat.digitChar e) : d = e := by
  have hall : ∀ d < 16, ∀ e < 16, Nat.digitChar d = Nat.digitChar e → d = e := by decide
  exact hall d hd e he h

theorem mem_toDigits (hb : 1 < b) {n : Nat} {c : Char} (h : c ∈ Nat.toDigits b n) :
    ∃ d < b, c = Nat.digitChar d := by
  induction n using Nat.strongRecOn with
  | _ n ih =>
    rw [Nat.toDigits_eq_if hb] at h
    split at h
    · next hn => exact ⟨n, hn, List.mem_singleton.1 h⟩
    · next hn =>
      rcases List.mem_append.1 h with h | h
      · exact ih (n / b) (Nat.div_lt_self (by omega) hb) h
      · exact ⟨n % b, Nat.mod_lt _ (by omega), List.mem_singleton.1 h⟩

/-- **Numbers of the same digits are the same**, up to hexadecimal. -/
theorem toDigits_injective (hb : 1 < b) (hb' : b ≤ 16) : Function.Injective (Nat.toDigits b) := by
  have hne : ∀ k, Nat.toDigits b k ≠ [] := fun k => Nat.toDigits_ne_nil
  intro m
  induction m using Nat.strongRecOn with
  | _ m ih =>
    intro n h
    rw [Nat.toDigits_eq_if hb, Nat.toDigits_eq_if (n := n) hb] at h
    by_cases hm : m < b
    · by_cases hn : n < b
      · rw [if_pos hm, if_pos hn] at h
        exact digitChar_inj (by omega) (by omega) (List.cons.inj h).1
      · rw [if_pos hm, if_neg hn] at h
        exact absurd h (by simp [List.singleton_eq_append_iff, hne])
    · by_cases hn : n < b
      · rw [if_neg hm, if_pos hn] at h
        exact absurd h (by simp [List.append_eq_singleton_iff, hne])
      · rw [if_neg hm, if_neg hn] at h
        obtain ⟨hinit, hlast⟩ := List.append_inj' h rfl
        have hmlt := Nat.mod_lt m (y := b) (by omega)
        have hnlt := Nat.mod_lt n (y := b) (by omega)
        have hdiv : m / b = n / b := ih (m / b) (Nat.div_lt_self (by omega) hb) hinit
        have hmod : m % b = n % b := digitChar_inj (by omega) (by omega) (List.cons.inj hlast).1
        rw [← Nat.div_add_mod m b, ← Nat.div_add_mod n b, hdiv, hmod]

end

/-! ## Whole numbers -/

/-- A digit or the sign of a negative number. -/
def Text.isSigned (c : Char) : Bool := c.isDigit || c = '-'

theorem isSigned_of_mem_toDigits {n : Nat} {c : Char} (h : c ∈ Nat.toDigits 10 n) :
    Text.isSigned c = true := by
  rw [Text.isSigned, Nat.isDigit_of_mem_toDigits (by omega) (by omega) h]
  rfl

namespace Word

theorem toList_text (n : Word) : (text n).toList =
    if 0 ≤ n.toInt then Nat.toDigits 10 n.toInt.toNat
    else '-' :: Nat.toDigits 10 (-n.toInt).toNat := by
  have hrepr : text n = n.toInt.repr := rfl
  rw [hrepr, Int.repr_eq_if]
  split
  · rw [Nat.repr_eq_ofList_toDigits, String.toList_ofList]
  · rw [Nat.repr_eq_ofList_toDigits, String.toList_append, String.toList_ofList,
      String.toList_ofList]
    rfl

theorem text_chars (n : Word) :
    (text n).toList ≠ [] ∧ ∀ c ∈ (text n).toList, Text.isSigned c = true := by
  rw [toList_text]
  split
  · exact ⟨Nat.toDigits_ne_nil, fun c hc => isSigned_of_mem_toDigits hc⟩
  · exact ⟨List.cons_ne_nil _ _,
      List.forall_mem_cons.2 ⟨rfl, fun c hc => isSigned_of_mem_toDigits hc⟩⟩

/-- **Different words have different texts.** -/
theorem text_injective : Function.Injective text := by
  have hminus : ∀ k l, '-' :: Nat.toDigits 10 k ≠ Nat.toDigits 10 l := by
    intro k l h
    have hdigit := Nat.isDigit_of_mem_toDigits (by omega) (by omega) (h ▸ List.mem_cons_self)
    exact absurd hdigit (by decide)
  have hinj := toDigits_injective (b := 10) (by omega) (by omega)
  intro m n h
  have h : (text m).toList = (text n).toList := congrArg String.toList h
  rw [toList_text, toList_text] at h
  refine Int64.toInt_inj.1 ?_
  by_cases hm : 0 ≤ m.toInt <;> by_cases hn : 0 ≤ n.toInt
  · rw [if_pos hm, if_pos hn] at h
    have := hinj h
    omega
  · rw [if_pos hm, if_neg hn] at h
    exact absurd h.symm (hminus _ _)
  · rw [if_neg hm, if_pos hn] at h
    exact absurd h (hminus _ _)
  · rw [if_neg hm, if_neg hn] at h
    have := hinj (List.cons.inj h).2
    omega

end Word

/-! ## Quoted texts -/

namespace Text

/-- The characters that are written as a backslash and a letter or sign, with that sign. -/
def shortEscapes : List (Char × Char) :=
  [('\x00', '0'), ('\t', 't'), ('\n', 'n'), ('\r', 'r'), ('"', '"'), ('\\', '\\')]

/-- The three ways in which a character is written inside quotes. -/
theorem escape_cases (c : Char) : (escape c = [c] ∧ c ≠ '\\' ∧ c ≠ '"') ∨
    (∃ k, escape c = ['\\', k] ∧ (c, k) ∈ shortEscapes) ∨
    escape c = '\\' :: 'u' :: '\x7b' :: (hex c.toNat ++ ['\x7d']) := by
  by_cases hshort : ∃ k, (c, k) ∈ shortEscapes
  · obtain ⟨k, hk⟩ := hshort
    have hall : ∀ p ∈ shortEscapes, escape p.1 = ['\\', p.2] := by decide
    exact .inr (.inl ⟨k, hall (c, k) hk, hk⟩)
  · have hne : ∀ p ∈ shortEscapes, c ≠ p.1 := by
      rintro p hp rfl
      exact hshort ⟨p.2, hp⟩
    simp only [shortEscapes, List.forall_mem_cons] at hne
    obtain ⟨h0, ht, hn, hr, hq, hb, -⟩ := hne
    by_cases hhidden : isHidden c = true
    · refine .inr (.inr ?_)
      simp only [escape, h0, ht, hn, hr, hq, hb, hhidden, if_true, if_false]
    · refine .inl ⟨?_, hb, hq⟩
      simp only [escape, h0, ht, hn, hr, hq, hb, hhidden, Bool.false_eq_true, if_false]

/-- **A character inside quotes and what follows it can be read back.** -/
theorem escape_append_inj {c d : Char} {r s : List Char} (h : escape c ++ r = escape d ++ s) :
    c = d ∧ r = s := by
  have hkeys : ∀ p ∈ shortEscapes, p.2 ≠ 'u' ∧ ∀ q ∈ shortEscapes, p.2 = q.2 → p.1 = q.1 := by
    decide
  have hbrace : ∀ n, ∀ x ∈ hex n, decide (x = '\x7d') = false := by
    intro n x hx
    obtain ⟨k, hk, rfl⟩ := mem_toDigits (by omega) hx
    have hall : ∀ k < 16, decide (Nat.digitChar k = '\x7d') = false := by decide
    exact hall k hk
  rcases escape_cases c with ⟨hc, hcb, -⟩ | ⟨k, hc, hk⟩ | hc <;>
    rcases escape_cases d with ⟨hd, hdb, -⟩ | ⟨l, hd, hl⟩ | hd <;>
    rw [hc, hd] at h
  case inl.inl => exact List.cons.inj h
  case inl.inr.inl | inl.inr.inr => exact absurd (List.cons.inj h).1 hcb
  case inr.inl.inl | inr.inr.inl => exact absurd (List.cons.inj h).1.symm hdb
  case inr.inl.inr.inl =>
    obtain ⟨hkl, hrest⟩ := List.cons.inj (List.cons.inj h).2
    exact ⟨(hkeys _ hk).2 _ hl hkl, hrest⟩
  case inr.inl.inr.inr =>
    exact absurd (List.cons.inj (List.cons.inj h).2).1 (hkeys _ hk).1
  case inr.inr.inr.inl =>
    exact absurd (List.cons.inj (List.cons.inj h).2).1.symm (hkeys _ hl).1
  case inr.inr.inr.inr =>
    have h : hex c.toNat ++ '\x7d' :: r = hex d.toNat ++ '\x7d' :: s := by simpa using h
    obtain ⟨hhex, hrest⟩ := append_inj_of_stop (p := fun x => decide (x = '\x7d'))
      (hbrace _) (hbrace _) ⟨_, _, rfl, by decide⟩ ⟨_, _, rfl, by decide⟩ h
    have hnat := toDigits_injective (b := 16) (by omega) (by omega) hhex
    exact ⟨Char.toNat_inj.1 hnat, (List.cons.inj hrest).2⟩

theorem not_quote_escape {c : Char} {r s : List Char} : escape c ++ r ≠ '"' :: s := by
  intro h
  rcases escape_cases c with ⟨hc, -, hq⟩ | ⟨k, hc, -⟩ | hc <;> rw [hc] at h
  · exact hq (List.cons.inj h).1
  · exact absurd (List.cons.inj h).1 (by decide)
  · exact absurd (List.cons.inj h).1 (by decide)

/-- **A quoted text and what follows it can be read back.** -/
theorem quote_append_inj {s t : String} {q r : List Char}
    (h : (quote s).toList ++ q = (quote t).toList ++ r) : s = t ∧ q = r := by
  have hbody : ∀ as bs : List Char, as.flatMap escape ++ '"' :: q = bs.flatMap escape ++ '"' :: r →
      as = bs ∧ q = r := by
    intro as
    induction as with
    | nil =>
      intro bs h
      cases bs with
      | nil => exact ⟨rfl, (List.cons.inj h).2⟩
      | cons b bs =>
        rw [List.flatMap_cons, List.append_assoc] at h
        exact absurd h.symm not_quote_escape
    | cons a as ih =>
      intro bs h
      cases bs with
      | nil =>
        rw [List.flatMap_cons, List.append_assoc] at h
        exact absurd h not_quote_escape
      | cons b bs =>
        rw [List.flatMap_cons, List.flatMap_cons, List.append_assoc, List.append_assoc] at h
        obtain ⟨rfl, hbody⟩ := escape_append_inj h
        obtain ⟨rfl, hrest⟩ := ih bs hbody
        exact ⟨rfl, hrest⟩
  rw [quote, quote, String.toList_ofList, String.toList_ofList] at h
  have h : s.toList.flatMap escape ++ '"' :: q = t.toList.flatMap escape ++ '"' :: r := by
    simpa using h
  obtain ⟨hst, hrest⟩ := hbody _ _ h
  exact ⟨String.toList_inj.1 hst, hrest⟩

end Text

/-! ## Floating-point literals -/

/-- A character of a decimal number. -/
def Text.isDecimal (c : Char) : Bool := isSigned c || c = '.' || c = 'e'

namespace Decimal.Layout

/-- What a decimal number looks like: it begins with a digit or a sign, and of its characters one at
least is a point or an exponent mark. -/
def Shape (cs : List Char) : Prop :=
  BeginsWith Text.isSigned cs ∧ (∀ c ∈ cs, Text.isDecimal c = true) ∧
    ∃ c ∈ cs, Text.isSigned c = false

theorem isDecimal_of_mem_toDigits {n : Nat} {c : Char} (h : c ∈ Nat.toDigits 10 n) :
    Text.isDecimal c = true := by
  rw [Text.isDecimal, isSigned_of_mem_toDigits h]
  rfl

section

variable {d : Char} {ds : List Char}

theorem shape_positional (hd : Text.isSigned d = true)
    (hall : ∀ c ∈ d :: ds, Text.isDecimal c = true) (e : Int) : Shape (positional (d :: ds) e) := by
  have hzeros : ∀ n, ∀ c ∈ List.replicate n '0', Text.isDecimal c = true := by
    intro n c hc
    rw [List.eq_of_mem_replicate hc]
    rfl
  unfold positional
  split
  · refine ⟨⟨'0', _, rfl, rfl⟩, ?_, '.', by simp, rfl⟩
    exact List.forall_mem_append.2
      ⟨List.forall_mem_cons.2 ⟨rfl, List.forall_mem_cons.2 ⟨rfl, hzeros _⟩⟩, hall⟩
  · next he =>
    dsimp only
    split
    · refine ⟨⟨d, _, rfl, hd⟩, ?_, '.', by simp, rfl⟩
      exact List.forall_mem_append.2 ⟨List.forall_mem_append.2 ⟨hall, hzeros _⟩, by decide⟩
    · obtain ⟨n, hn⟩ : ∃ n, (e + 1).toNat = n + 1 := ⟨e.toNat, by omega⟩
      refine ⟨⟨d, _, by rw [hn]; rfl, hd⟩, ?_, '.', by simp, rfl⟩
      exact List.forall_mem_append.2 ⟨fun c hc => hall c (List.mem_of_mem_take hc),
        List.forall_mem_cons.2 ⟨rfl, fun c hc => hall c (List.mem_of_mem_drop hc)⟩⟩

theorem shape_scientific {l : Layout} (hplus : l.plus = "") (hd : Text.isSigned d = true)
    (hall : ∀ c ∈ d :: ds, Text.isDecimal c = true) (e : Int) :
    Shape (l.scientific (d :: ds) e) := by
  unfold scientific
  refine ⟨⟨d, _, rfl, hd⟩, ?_, 'e', by simp, rfl⟩
  refine List.forall_mem_append.2 ⟨List.forall_mem_append.2 ⟨?_, ?_⟩,
    List.forall_mem_cons.2 ⟨rfl, List.forall_mem_append.2 ⟨?_, ?_⟩⟩⟩
  · exact fun c hc => hall c (List.mem_of_mem_take hc)
  · split
    · exact List.forall_mem_nil _
    · exact List.forall_mem_cons.2 ⟨rfl, fun c hc => hall c (List.mem_of_mem_drop hc)⟩
  · rw [hplus]
    split <;> decide
  · exact fun c hc => isDecimal_of_mem_toDigits hc

end

/-- **A finite number is written as a decimal number.** -/
theorem shape_text {l : Layout} (hplus : l.plus = "") (x : Binary64) :
    Shape (l.text x).toList := by
  have hnumber : ∀ digits power, Shape (l.number digits power) := by
    intro digits power
    obtain ⟨d, ds, hds⟩ := List.exists_cons_of_ne_nil
      (Nat.toDigits_ne_nil (n := digits) (b := 10))
    have hd : Text.isSigned d = true := isSigned_of_mem_toDigits (hds ▸ List.mem_cons_self)
    have hall : ∀ c ∈ d :: ds, Text.isDecimal c = true :=
      fun c hc => isDecimal_of_mem_toDigits (hds ▸ hc)
    unfold number
    simp only [hds]
    split
    · exact shape_positional hd hall _
    · exact shape_scientific hplus hd hall _
  have hsign : ∀ cs, Shape cs → Shape ((if x.sign then ['-'] else []) ++ cs) := by
    intro cs h
    split
    · obtain ⟨-, hall, c, hc, hsigned⟩ := h
      exact ⟨⟨'-', cs, rfl, rfl⟩, List.forall_mem_cons.2 ⟨rfl, hall⟩, c,
        List.mem_cons_of_mem _ hc, hsigned⟩
    · exact h
  unfold text
  simp only
  split
  · rw [String.toList_ofList]
    exact hsign _ ⟨⟨'0', _, rfl, rfl⟩, by decide, '.', by decide, rfl⟩
  · rw [String.toList_ofList]
    exact hsign _ (hnumber _ _)

end Decimal.Layout

namespace Binary64

open Decimal

/-- The three numbers that are not finite have texts of their own; any other is written as a decimal
number. -/
theorem text_cases (x : Binary64) : (x.text = "NaN" ∧ x.textC = "NAN") ∨
    (x.text = "inf" ∧ x.textC = "INFINITY") ∨ (x.text = "-inf" ∧ x.textC = "-INFINITY") ∨
    (Layout.Shape x.text.toList ∧ x.textC = x.text ++ "f") := by
  unfold textC
  by_cases hnan : x.isNaN = true
  · exact .inl ⟨by rw [text, if_pos hnan], by rw [if_pos hnan]⟩
  · rw [if_neg hnan]
    by_cases hinf : x.isInfinite = true
    · rw [if_pos hinf, text, if_neg hnan, if_pos hinf]
      by_cases hsign : x.sign = true
      · rw [if_pos hsign, if_pos hsign]
        exact .inr (.inr (.inl ⟨rfl, rfl⟩))
      · rw [if_neg hsign, if_neg hsign]
        exact .inr (.inl ⟨rfl, rfl⟩)
    · rw [if_neg hinf]
      have htext : x.text = Expr.floatLayout.text x := by rw [text, if_neg hnan, if_neg hinf]
      exact .inr (.inr (.inr ⟨htext ▸ Layout.shape_text rfl x, rfl⟩))

/-- **A literal is spelled in C as its text says.** -/
theorem textC_eq_of_text_eq {x y : Binary64} (h : x.text = y.text) : x.textC = y.textC := by
  have hspecial : ¬Layout.Shape "NaN".toList ∧ ¬Layout.Shape "inf".toList ∧
      ¬Layout.Shape "-inf".toList :=
    ⟨fun h => absurd h.2.1 (by decide), fun h => absurd h.2.1 (by decide),
      fun h => absurd h.2.1 (by decide)⟩
  obtain ⟨hnan, hinf, hminus⟩ := hspecial
  rcases text_cases x with ⟨hx, hcx⟩ | ⟨hx, hcx⟩ | ⟨hx, hcx⟩ | ⟨hx, hcx⟩ <;>
    rcases text_cases y with ⟨hy, hcy⟩ | ⟨hy, hcy⟩ | ⟨hy, hcy⟩ | ⟨hy, hcy⟩ <;>
    simp_all

end Binary64

end LoopNest
