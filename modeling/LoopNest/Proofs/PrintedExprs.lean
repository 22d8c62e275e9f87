import LoopNest.Expr.Vars
import LoopNest.Proofs.Evaluation
import LoopNest.Proofs.PrintedLiterals

/-!
# Expressions read back from their text

A printed expression shows its tree, if names look like names: they hold no delimiter and do not
begin like a number. What it does not show are the numbers and types of variables and the types of
calls, and of a floating-point literal it shows the text.

* `Text.IsWord`, `Text.Plain`, `Text.Callable`, `Expr.Legible`: names that look like names;
* `Expr.Alike`: expressions that differ only in what is not shown;
* `Expr.head`, `Expr.tail`, `Expr.Form`: the first word of an expression, what comes after it, and
  what both tell of the tree;
* **`Expr.readsBack`**, **`Expr.listing_append_inj`**: expressions and lists of them.
-/

namespace LoopNest

theorem ElemType.text_injective : Function.Injective text := by
  intro t u h
  have hread := ofText?_text t
  rw [h, ofText?_text u] at hread
  exact (Option.some.inj hread).symm

/-! ## Names that look like names -/

namespace Text

/-- The characters that end a word. -/
def delimiters : List Char := [' ', ',', '(', ')', '[', ']', '"', ':', '|', '\n']

/-- The character ends a word. -/
def isDelimiter (c : Char) : Bool := decide (c ∈ delimiters)

/-- The character may follow an expression. -/
def closes (c : Char) : Bool := decide (c ∈ [' ', ',', ')', ']', '\n'])

/-- The text is a word. -/
def IsWord (s : String) : Prop := s.toList ≠ [] ∧ ∀ c ∈ s.toList, isDelimiter c = false

instance (s : String) : Decidable (IsWord s) := inferInstanceAs (Decidable (_ ∧ _))

/-- A name of a variable: a word that does not begin like a number and does not stand for one. -/
def Plain (s : String) : Prop :=
  IsWord s ∧ s.toList.head?.any isSigned = false ∧ s ≠ "NaN" ∧ s ≠ "inf"

instance (s : String) : Decidable (Plain s) := inferInstanceAs (Decidable (_ ∧ _))

/-- A name of a function: a word that is not that of an operator and no cast. -/
def Callable (s : String) : Prop := IsWord s ∧ '<' ∉ s.toList ∧ s ≠ "min" ∧ s ≠ "max"

instance (s : String) : Decidable (Callable s) := inferInstanceAs (Decidable (_ ∧ _))

/-- Items that are written as different words read back in front of a delimiter. -/
theorem word_append_inj {α : Type} {word : α → String} (hinj : Function.Injective word)
    (hword : ∀ a, ∀ c ∈ (word a).toList, isDelimiter c = false) {a b : α} {r s : List Char}
    (hr : BeginsWith isDelimiter r) (hs : BeginsWith isDelimiter s)
    (h : (word a).toList ++ r = (word b).toList ++ s) : a = b ∧ r = s := by
  obtain ⟨hab, hrest⟩ := append_inj_of_stop (hword a) (hword b) hr hs h
  exact ⟨hinj (String.toList_inj.1 hab), hrest⟩

theorem isDelimiter_of_closes {c : Char} (h : closes c = true) : isDelimiter c = true := by
  have hall : ∀ c ∈ [' ', ',', ')', ']', '\n'], isDelimiter c = true := by decide
  exact hall c (of_decide_eq_true h)

theorem not_isDelimiter_of_isDecimal {c : Char} (h : isDecimal c = true) :
    isDelimiter c = false := by
  have hall : ∀ c ∈ delimiters, isDecimal c = false := by decide
  by_contra hc
  have hmem : c ∈ delimiters := of_decide_eq_true (Bool.not_eq_false _ ▸ hc)
  rw [hall c hmem] at h
  exact nomatch h

theorem isDecimal_of_isSigned {c : Char} (h : isSigned c = true) : isDecimal c = true := by
  rw [isDecimal, h]
  rfl

end Text

namespace Expr

open Text

mutual

/-- The calls of an expression, as names with types, in order of appearance. -/
def calls : Expr → List (String × ElemType)
  | int _ | float _ | str _ | var _ => []
  | binary _ a b => a.calls ++ b.calls
  | cast _ a => a.calls
  | load _ is => callsAll is
  | call t f as => (f, t) :: callsAll as

/-- The calls of expressions. -/
def callsAll : List Expr → List (String × ElemType)
  | [] => []
  | e :: es => e.calls ++ callsAll es

end

/-- Variables and functions have names that look like names. -/
structure Legible (e : Expr) : Prop where
  vars : ∀ v ∈ e.vars, Plain v.name
  calls : ∀ c ∈ e.calls, Callable c.1

section

variable {a b : Expr} {es : List Expr}

theorem Legible.left {op : Operator} (h : (binary op a b).Legible) : a.Legible :=
  ⟨fun v hv => h.vars v (List.mem_append_left _ hv),
    fun c hc => h.calls c (List.mem_append_left _ hc)⟩

theorem Legible.right {op : Operator} (h : (binary op a b).Legible) : b.Legible :=
  ⟨fun v hv => h.vars v (List.mem_append_right _ hv),
    fun c hc => h.calls c (List.mem_append_right _ hc)⟩

theorem legible_of_all (hv : ∀ v ∈ varsAll es, Plain v.name)
    (hc : ∀ c ∈ callsAll es, Callable c.1) : ∀ e ∈ es, e.Legible := by
  induction es with
  | nil => exact List.forall_mem_nil _
  | cons e es ih =>
    obtain ⟨hv, hvs⟩ := List.forall_mem_append.1 hv
    obtain ⟨hc, hcs⟩ := List.forall_mem_append.1 hc
    exact List.forall_mem_cons.2 ⟨⟨hv, hc⟩, ih hvs hcs⟩

theorem Legible.indices {v : Var} (h : (load v es).Legible) : ∀ e ∈ es, e.Legible :=
  legible_of_all (List.forall_mem_cons.1 h.vars).2 h.calls

theorem Legible.args {t : ElemType} {f : String} (h : (call t f es).Legible) :
    ∀ e ∈ es, e.Legible :=
  legible_of_all h.vars (List.forall_mem_cons.1 h.calls).2

theorem text_of_plain {v : Var} (h : Plain v.name) : v.text = v.name := by
  have hempty : v.name.isEmpty = false := by
    have hne : v.name ≠ "" := fun he => h.1.1 (by rw [he]; rfl)
    simpa using hne
  rw [Var.text, hempty]
  rfl

end

/-! ## What is shown -/

mutual

/-- Two expressions differ only in what their texts do not show. -/
def Alike : Expr → Expr → Prop
  | int m, int n => m = n
  | float x, float y => x.text = y.text
  | str s, str t => s = t
  | var v, var w => v.name = w.name
  | binary o a b, binary p c d => o = p ∧ a.Alike c ∧ b.Alike d
  | cast t a, cast u b => t = u ∧ a.Alike b
  | load v is, load w js => v.name = w.name ∧ AllAlike is js
  | call _ f as, call _ g bs => f = g ∧ AllAlike as bs
  | _, _ => False

/-- The same for two lists, item by item. -/
def AllAlike : List Expr → List Expr → Prop
  | [], [] => True
  | a :: as, b :: bs => a.Alike b ∧ AllAlike as bs
  | _, _ => False

end

end Expr

/-- The operator is written before its operands, as a function. -/
def Operator.isPrefix : Operator → Bool
  | min | max => true
  | _ => false

theorem Operator.symbol_injective : Function.Injective symbol := by
  intro o p h
  cases o <;> cases p <;> first | rfl | exact absurd h (by decide)

namespace Expr

open Text

/-- The first word of an expression. -/
def head : Expr → List Char
  | int n => (Word.text n).toList
  | float x => x.text.toList
  | str _ => []
  | var v => v.text.toList
  | binary op _ _ => if op.isPrefix then op.symbol.toList else []
  | cast t _ => ("cast<" ++ t.text ++ ">").toList
  | load v _ => v.text.toList
  | call _ f _ => f.toList

/-- What comes after the first word of an expression. -/
def tail : Expr → List Char
  | int _ | float _ | var _ => []
  | str s => (quote s).toList
  | binary op a b =>
    if op.isPrefix then '(' :: (a.text.toList ++ ',' :: ' ' :: (b.text.toList ++ [')']))
    else '(' :: (a.text.toList ++ ' ' :: (op.symbol.toList ++ ' ' :: (b.text.toList ++ [')'])))
  | cast _ a => '(' :: (a.text.toList ++ [')'])
  | load _ is => '[' :: ((listing is).toList ++ [']'])
  | call _ _ as => '(' :: ((listing as).toList ++ [')'])

theorem toList_text (e : Expr) : e.text.toList = e.head ++ e.tail := by
  cases e with
  | int | float | var => simp [text, head, tail]
  | str => simp [text, head, tail]
  | binary op a b => cases op <;> simp [text, head, tail, Operator.isPrefix, Operator.symbol]
  | cast | load | call => simp [text, head, tail, listing]

/-- The kinds of expressions that their first words and the characters after these tell apart. -/
inductive Form where
  | int
  | float
  | str
  | var
  | inner
  | front
  | cast
  | load
  | call
deriving DecidableEq

/-- The form of an expression. -/
def form : Expr → Form
  | int _ => .int
  | float _ => .float
  | str _ => .str
  | var _ => .var
  | binary op _ _ => if op.isPrefix then .front else .inner
  | cast _ _ => .cast
  | load _ _ => .load
  | call _ _ _ => .call

/-- The form that a word and the text after it show. -/
def Form.of (word rest : List Char) : Form :=
  if rest.head? = some '"' then .str
  else if rest.head? = some '[' then .load
  else if rest.head? = some '(' then
    if word = [] then .inner
    else if word = "min".toList ∨ word = "max".toList then .front
    else if '<' ∈ word then .cast
    else .call
  else if ∀ c ∈ word, isSigned c = true then .int
  else if word.head?.any isSigned = true ∨ word = "NaN".toList ∨ word = "inf".toList then
    .float
  else .var

theorem head_chars {e : Expr} (he : e.Legible) : ∀ c ∈ e.head, isDelimiter c = false := by
  have hplain : ∀ {v : Var}, Plain v.name → ∀ c ∈ v.text.toList, isDelimiter c = false := by
    intro v hv c hc
    rw [text_of_plain hv] at hc
    exact hv.1.2 c hc
  cases e with
  | int n =>
    exact fun c hc => not_isDelimiter_of_isDecimal
      (isDecimal_of_isSigned ((Word.text_chars n).2 c hc))
  | float x =>
    rw [head]
    rcases x.text_cases with ⟨h, -⟩ | ⟨h, -⟩ | ⟨h, -⟩ | ⟨h, -⟩
    · rw [h]
      decide
    · rw [h]
      decide
    · rw [h]
      decide
    · exact fun c hc => not_isDelimiter_of_isDecimal (h.2.1 c hc)
  | str s => exact List.forall_mem_nil _
  | var v => exact hplain (he.vars v List.mem_cons_self)
  | binary op a b =>
    rw [head]
    cases op <;> decide
  | cast t a =>
    rw [head]
    cases t <;> decide
  | load v is => exact hplain (he.vars v List.mem_cons_self)
  | call t f as => exact (he.calls (f, t) List.mem_cons_self).1.2

theorem beginsWith_tail (e : Expr) {r : List Char} (hr : BeginsWith closes r) :
    BeginsWith isDelimiter (e.tail ++ r) := by
  cases e with
  | int | float | var =>
    obtain ⟨c, cs, rfl, hc⟩ := hr
    exact ⟨c, cs, rfl, isDelimiter_of_closes hc⟩
  | str s =>
    rw [tail, quote, String.toList_ofList]
    exact ⟨'"', _, rfl, by decide⟩
  | binary op a b =>
    rw [tail]
    split <;> exact ⟨'(', _, rfl, by decide⟩
  | cast t a | call t f as => exact ⟨'(', _, rfl, by decide⟩
  | load v is => exact ⟨'[', _, rfl, by decide⟩

/-- **The first word and the character after it tell the form.** -/
theorem of_head {e : Expr} (he : e.Legible) {r : List Char} (hr : BeginsWith closes r) :
    Form.of e.head (e.tail ++ r) = e.form := by
  obtain ⟨c, cs, rfl, hc⟩ := hr
  have hopen : ¬some c = some '"' ∧ ¬some c = some '[' ∧ ¬some c = some '(' := by
    refine ⟨?_, ?_, ?_⟩ <;> rintro ⟨⟩ <;> exact absurd hc (by decide)
  obtain ⟨hquote, hbracket, hparen⟩ := hopen
  cases e with
  | int n =>
    rw [Form.of, tail, List.nil_append, List.head?_cons, if_neg hquote, if_neg hbracket,
      if_neg hparen, head, if_pos (Word.text_chars n).2, form]
  | float x =>
    rw [Form.of, tail, List.nil_append, List.head?_cons, if_neg hquote, if_neg hbracket,
      if_neg hparen, head, form]
    rcases x.text_cases with ⟨h, -⟩ | ⟨h, -⟩ | ⟨h, -⟩ |
      ⟨⟨⟨d, ds, hd, hsigned⟩, -, f, hf, hpoint⟩, -⟩
    · rw [h]
      decide
    · rw [h]
      decide
    · rw [h]
      decide
    · have hnot : ¬∀ c ∈ x.text.toList, isSigned c = true := fun hall => by
        rw [hall f hf] at hpoint
        cases hpoint
      have hfirst : x.text.toList.head?.any isSigned = true := by
        rw [hd]
        exact hsigned
      rw [if_neg hnot, if_pos (.inl hfirst)]
  | str s => rw [Form.of, tail, quote, String.toList_ofList]; rfl
  | var v =>
    have hv := he.vars v List.mem_cons_self
    obtain ⟨d, ds, hd⟩ := List.exists_cons_of_ne_nil hv.1.1
    have hfirst := hv.2.1
    have hsigned : isSigned d = false := by rwa [hd] at hfirst
    have hnot : ¬∀ c ∈ v.name.toList, isSigned c = true := fun hall => by
      rw [hall d (hd ▸ List.mem_cons_self)] at hsigned
      cases hsigned
    have hnumber : ¬(v.name.toList.head?.any isSigned = true ∨
        v.name.toList = "NaN".toList ∨ v.name.toList = "inf".toList) := by
      rintro (h | h | h)
      · rw [hfirst] at h
        cases h
      · exact hv.2.2.1 (String.toList_inj.1 h)
      · exact hv.2.2.2 (String.toList_inj.1 h)
    rw [Form.of, tail, List.nil_append, List.head?_cons, if_neg hquote, if_neg hbracket,
      if_neg hparen, head, text_of_plain hv, if_neg hnot, if_neg hnumber, form]
  | binary op a b => cases op <;> rfl
  | cast t a => cases t <;> rfl
  | load v is => rfl
  | call t f as =>
    obtain ⟨hword, hangle, hmin, hmax⟩ := he.calls (f, t) List.mem_cons_self
    have hne : ¬(f.toList = "min".toList ∨ f.toList = "max".toList) := by
      rintro (h | h)
      · exact hmin (String.toList_inj.1 h)
      · exact hmax (String.toList_inj.1 h)
    change (if f.toList = [] then Form.inner
      else if f.toList = "min".toList ∨ f.toList = "max".toList then Form.front
      else if '<' ∈ f.toList then Form.cast else Form.call) = Form.call
    rw [if_neg hword.1, if_neg hne, if_neg hangle]

/-! ## Reading back -/

/-- The expressions of each form. -/
def Form.Holds : Form → Expr → Prop
  | .int, e => ∃ n, e = Expr.int n
  | .float, e => ∃ x, e = Expr.float x
  | .str, e => ∃ s, e = Expr.str s
  | .var, e => ∃ v, e = Expr.var v
  | .inner, e => ∃ op a b, e = binary op a b ∧ op.isPrefix = false
  | .front, e => ∃ op a b, e = binary op a b ∧ op.isPrefix = true
  | .cast, e => ∃ t a, e = Expr.cast t a
  | .load, e => ∃ v is, e = Expr.load v is
  | .call, e => ∃ t f as, e = Expr.call t f as

theorem holds_form (e : Expr) : e.form.Holds e := by
  cases e with
  | binary op a b => cases op <;> exact ⟨_, _, _, rfl, rfl⟩
  | int | float | str | var => exact ⟨_, rfl⟩
  | cast | load => exact ⟨_, _, rfl⟩
  | call => exact ⟨_, _, _, rfl⟩

/-- What is printed like the expression, up to a character that may follow it, is alike. -/
def ReadsBack (e : Expr) : Prop :=
  ∀ {f : Expr} {r s : List Char}, f.Legible → BeginsWith closes r → BeginsWith closes s →
    e.text.toList ++ r = f.text.toList ++ s → e.Alike f ∧ r = s

/-- An expression begins with a character that can follow none. -/
theorem exists_cons_text {e : Expr} (he : e.Legible) (r : List Char) :
    ∃ c cs, e.text.toList ++ r = c :: cs ∧ closes c = false := by
  have hfirst : e.head ≠ [] ∨ ∃ c cs, e.tail = c :: cs ∧ closes c = false := by
    cases e with
    | int n => exact .inl (Word.text_chars n).1
    | float x =>
      refine .inl ?_
      rw [head]
      rcases x.text_cases with ⟨h, -⟩ | ⟨h, -⟩ | ⟨h, -⟩ | ⟨⟨⟨d, ds, hd, -⟩, -⟩, -⟩
      · rw [h]
        decide
      · rw [h]
        decide
      · rw [h]
        decide
      · rw [hd]
        exact List.cons_ne_nil d ds
    | str s => exact .inr ⟨'"', _, by rw [tail, quote, String.toList_ofList], by decide⟩
    | var v | load v is =>
      have hv := he.vars v List.mem_cons_self
      rw [head, text_of_plain hv]
      exact .inl hv.1.1
    | binary op a b =>
      cases op with
      | min | max => exact .inl (by rw [head]; decide)
      | _ => exact .inr ⟨'(', _, rfl, by decide⟩
    | cast t a => exact .inl (by rw [head]; cases t <;> decide)
    | call t f as => exact .inl (he.calls (f, t) List.mem_cons_self).1.1
  rw [toList_text]
  cases hhead : e.head with
  | nil =>
    obtain ⟨c, cs, hc, hclose⟩ := hfirst.resolve_left (not_not.2 hhead)
    exact ⟨c, _, by rw [hc]; rfl, hclose⟩
  | cons c cs =>
    have hdelimiter : isDelimiter c = false := head_chars he c (hhead ▸ List.mem_cons_self)
    refine ⟨c, _, rfl, ?_⟩
    by_contra h
    rw [isDelimiter_of_closes (by simpa using h)] at hdelimiter
    cases hdelimiter

/-! ## Items with commas between -/

section

variable {α : Type} {text : α → String} {Same : α → α → Prop} {sep : String} {w : List Char}

/-- What stands between the first item and the end. -/
def more (sep : String) (text : α → String) : List α → List Char
  | [] => []
  | a :: as => sep.toList ++ (sep.intercalate ((a :: as).map text)).toList

theorem toList_intercalate_cons (a : α) (as : List α) (r : List Char) :
    (sep.intercalate ((a :: as).map text)).toList ++ r =
      (text a).toList ++ (more sep text as ++ r) := by
  cases as with
  | nil => rfl
  | cons b bs =>
    rw [List.map_cons, List.map_cons, String.intercalate_cons_cons, String.toList_append,
      String.toList_append, more, List.map_cons, List.append_assoc, List.append_assoc,
      List.append_assoc]

variable (sep) in
/-- **Items with commas between read back**, up to a character that may follow an expression, if
each item does. -/
theorem intercalate_append_inj (hsep : sep.toList = ',' :: w) {as bs : List α}
    (hread : ∀ a ∈ as, ∀ b ∈ bs, ∀ {r s : List Char}, BeginsWith closes r → BeginsWith closes s →
      (text a).toList ++ r = (text b).toList ++ s → Same a b ∧ r = s)
    (hopen : ∀ a ∈ as ++ bs, ∀ r, ∃ c cs, (text a).toList ++ r = c :: cs ∧ closes c = false)
    {c : Char} (hc : closes c = true) (hcomma : c ≠ ',') {r s : List Char}
    (h : (sep.intercalate (as.map text)).toList ++ c :: r =
      (sep.intercalate (bs.map text)).toList ++ c :: s) : List.Forall₂ Same as bs ∧ r = s := by
  have hfirst : ∀ {a : α} {as : List α} {q r : List Char},
      (∀ r, ∃ c cs, (text a).toList ++ r = c :: cs ∧ closes c = false) →
      c :: r ≠ (sep.intercalate ((a :: as).map text)).toList ++ q := by
    intro a as q r ha h
    rw [toList_intercalate_cons] at h
    obtain ⟨d, ds, hd, hclose⟩ := ha (more sep text as ++ q)
    obtain ⟨rfl, -⟩ := List.cons.inj (h.trans hd)
    rw [hc] at hclose
    exact nomatch hclose
  have hmore : ∀ (as : List α) (q : List Char), BeginsWith closes (more sep text as ++ c :: q) := by
    intro as q
    cases as with
    | nil => exact ⟨c, q, rfl, hc⟩
    | cons a as => exact ⟨',', _, by rw [more, hsep]; rfl, by decide⟩
  induction as generalizing bs with
  | nil =>
    cases bs with
    | nil => exact ⟨.nil, (List.cons.inj h).2⟩
    | cons b bs => exact absurd h (hfirst (hopen b List.mem_cons_self))
  | cons a as ih =>
    cases bs with
    | nil => exact absurd h.symm (hfirst (hopen a List.mem_cons_self))
    | cons b bs =>
      rw [toList_intercalate_cons, toList_intercalate_cons] at h
      obtain ⟨hab, hrest⟩ := hread a List.mem_cons_self b List.mem_cons_self (hmore as r)
        (hmore bs s) h
      cases as with
      | nil =>
        cases bs with
        | nil => exact ⟨.cons hab .nil, (List.cons.inj hrest).2⟩
        | cons b' bs' =>
          rw [more, more, hsep] at hrest
          exact absurd (List.cons.inj hrest).1 hcomma
      | cons a' as' =>
        cases bs with
        | nil =>
          rw [more, more, hsep] at hrest
          exact absurd (List.cons.inj hrest).1.symm hcomma
        | cons b' bs' =>
          rw [more, more, List.append_assoc, List.append_assoc] at hrest
          obtain ⟨hall, hr⟩ := ih
            (fun a ha b hb => hread a (List.mem_cons_of_mem _ ha) b (List.mem_cons_of_mem _ hb))
            (fun x hx => hopen x (by
              rcases List.mem_append.1 hx with hx | hx
              · exact List.mem_append_left _ (List.mem_cons_of_mem _ hx)
              · exact List.mem_append_right _ (List.mem_cons_of_mem _ hx)))
            (List.append_cancel_left hrest)
          exact ⟨.cons hab hall, hr⟩

end

theorem allAlike_iff {es fs : List Expr} : AllAlike es fs ↔ List.Forall₂ Alike es fs := by
  induction es generalizing fs with
  | nil => cases fs <;> simp [AllAlike]
  | cons e es ih => cases fs <;> simp [AllAlike, ih]

/-- **A list of expressions reads back**, up to the bracket that closes it. -/
theorem listing_append_inj (sep : String) {w : List Char} (hsep : sep.toList = ',' :: w)
    {es fs : List Expr} (hreads : ∀ e ∈ es, e.ReadsBack) (hes : ∀ e ∈ es, e.Legible)
    (hfs : ∀ f ∈ fs, f.Legible) {c : Char} (hc : closes c = true) (hcomma : c ≠ ',')
    {r s : List Char} (h : (sep.intercalate (texts es)).toList ++ c :: r =
      (sep.intercalate (texts fs)).toList ++ c :: s) : AllAlike es fs ∧ r = s := by
  rw [texts_eq_map, texts_eq_map] at h
  obtain ⟨hall, hrest⟩ := intercalate_append_inj sep hsep
    (fun e he f hf _ _ hr hs => hreads e he (hfs f hf) hr hs)
    (fun e he => exists_cons_text ((List.mem_append.1 he).elim (hes e) (hfs e))) hc hcomma h
  exact ⟨allAlike_iff.2 hall, hrest⟩

/-! ## Expressions -/

/-- First words are the same, and so is what comes after them; so both are of one form. -/
theorem split_text {e f : Expr} (he : e.Legible) (hf : f.Legible) {r s : List Char}
    (hr : BeginsWith closes r) (hs : BeginsWith closes s)
    (h : e.text.toList ++ r = f.text.toList ++ s) :
    e.head = f.head ∧ e.tail ++ r = f.tail ++ s ∧ e.form.Holds f := by
  rw [toList_text, toList_text, List.append_assoc, List.append_assoc] at h
  obtain ⟨hhead, htail⟩ := append_inj_of_stop (head_chars he) (head_chars hf)
    (beginsWith_tail e hr) (beginsWith_tail f hs) h
  have hform : e.form = f.form := by rw [← of_head he hr, ← of_head hf hs, hhead, htail]
  exact ⟨hhead, htail, hform ▸ f.holds_form⟩

theorem symbol_chars (op : Operator) : ∀ c ∈ op.symbol.toList, isDelimiter c = false := by
  cases op <;> decide

/-- **An expression reads back**: what is printed like it, up to a character that may follow an
expression, is alike. -/
theorem readsBack {e : Expr} (he : e.Legible) : e.ReadsBack := by
  have hparen : ∀ q, BeginsWith closes (')' :: q) := fun q => ⟨')', q, rfl, by decide⟩
  have hblank : ∀ q, BeginsWith closes (' ' :: q) := fun q => ⟨' ', q, rfl, by decide⟩
  have hcomma : ∀ q, BeginsWith closes (',' :: q) := fun q => ⟨',', q, rfl, by decide⟩
  have hword : ∀ q, BeginsWith isDelimiter (' ' :: q) := fun q => ⟨' ', q, rfl, by decide⟩
  induction e using inductionOn with
  | int n =>
    intro f r s hf hr hs h
    obtain ⟨hhead, htail, hform⟩ := split_text he hf hr hs h
    obtain ⟨m, rfl⟩ := hform
    exact ⟨Word.text_injective (String.toList_inj.1 hhead), htail⟩
  | float x =>
    intro f r s hf hr hs h
    obtain ⟨hhead, htail, hform⟩ := split_text he hf hr hs h
    obtain ⟨y, rfl⟩ := hform
    exact ⟨String.toList_inj.1 hhead, htail⟩
  | str t =>
    intro f r s hf hr hs h
    obtain ⟨-, htail, hform⟩ := split_text he hf hr hs h
    obtain ⟨u, rfl⟩ := hform
    exact quote_append_inj htail
  | var v =>
    intro f r s hf hr hs h
    obtain ⟨hhead, htail, hform⟩ := split_text he hf hr hs h
    obtain ⟨w, rfl⟩ := hform
    rw [head, head, text_of_plain (he.vars v List.mem_cons_self),
      text_of_plain (hf.vars w List.mem_cons_self)] at hhead
    exact ⟨String.toList_inj.1 hhead, htail⟩
  | binary op a b iha ihb =>
    intro f r s hf hr hs h
    obtain ⟨hhead, htail, hform⟩ := split_text he hf hr hs h
    by_cases hprefix : op.isPrefix = true
    · rw [form, if_pos hprefix] at hform
      obtain ⟨p, c, d, rfl, hp⟩ := hform
      rw [head, head, if_pos hprefix, if_pos hp] at hhead
      rw [tail, tail, if_pos hprefix, if_pos hp] at htail
      simp only [List.cons_append, List.append_assoc, List.nil_append] at htail
      obtain ⟨hac, h⟩ := iha he.left hf.left (hcomma _) (hcomma _) (List.cons.inj htail).2
      obtain ⟨hbd, h⟩ := ihb he.right hf.right (hparen _) (hparen _)
        (List.cons.inj (List.cons.inj h).2).2
      exact ⟨⟨Operator.symbol_injective (String.toList_inj.1 hhead), hac, hbd⟩,
        (List.cons.inj h).2⟩
    · rw [form, if_neg hprefix] at hform
      obtain ⟨p, c, d, rfl, hp⟩ := hform
      have hp : ¬p.isPrefix = true := by simp [hp]
      rw [tail, tail, if_neg hprefix, if_neg hp] at htail
      simp only [List.cons_append, List.append_assoc, List.nil_append] at htail
      obtain ⟨hac, h⟩ := iha he.left hf.left (hblank _) (hblank _) (List.cons.inj htail).2
      obtain ⟨hop, h⟩ := word_append_inj Operator.symbol_injective symbol_chars (hword _) (hword _)
        (List.cons.inj h).2
      obtain ⟨hbd, h⟩ := ihb he.right hf.right (hparen _) (hparen _) (List.cons.inj h).2
      exact ⟨⟨hop, hac, hbd⟩, (List.cons.inj h).2⟩
  | cast t a iha =>
    intro f r s hf hr hs h
    obtain ⟨hhead, htail, hform⟩ := split_text he hf hr hs h
    obtain ⟨u, b, rfl⟩ := hform
    simp only [head, String.toList_append] at hhead
    have htype : t = u := ElemType.text_injective
      (String.toList_inj.1 (List.append_cancel_left (List.append_cancel_right hhead)))
    simp only [tail, List.cons_append, List.append_assoc, List.nil_append] at htail
    obtain ⟨hab, h⟩ := iha ⟨he.vars, he.calls⟩ (f := b) ⟨hf.vars, hf.calls⟩ (hparen _) (hparen _)
      (List.cons.inj htail).2
    exact ⟨⟨htype, hab⟩, (List.cons.inj h).2⟩
  | load v is ih =>
    intro f r s hf hr hs h
    obtain ⟨hhead, htail, hform⟩ := split_text he hf hr hs h
    obtain ⟨w, js, rfl⟩ := hform
    rw [head, head, text_of_plain (he.vars v List.mem_cons_self),
      text_of_plain (hf.vars w List.mem_cons_self)] at hhead
    simp only [tail, List.cons_append, List.append_assoc, List.nil_append] at htail
    obtain ⟨hall, hrest⟩ := listing_append_inj ", " rfl
      (fun e h => ih e h (he.indices e h)) he.indices hf.indices (by decide) (by decide)
      (List.cons.inj htail).2
    exact ⟨⟨String.toList_inj.1 hhead, hall⟩, hrest⟩
  | call t g as ih =>
    intro f r s hf hr hs h
    obtain ⟨hhead, htail, hform⟩ := split_text he hf hr hs h
    obtain ⟨u, g', bs, rfl⟩ := hform
    simp only [tail, List.cons_append, List.append_assoc, List.nil_append] at htail
    obtain ⟨hall, hrest⟩ := listing_append_inj ", " rfl
      (fun e h => ih e h (he.args e h)) he.args hf.args (by decide) (by decide)
      (List.cons.inj htail).2
    exact ⟨⟨String.toList_inj.1 hhead, hall⟩, hrest⟩

end Expr

end LoopNest
