import LoopNest.C.Routine
import LoopNest.Proofs.ReservedNames
import Mathlib.Data.List.SplitBy

/-!
# Reading formulas of C

A text is cut into tokens, and a line of tokens is read as a formula by the grammar of C: operators
bind in the order of their precedence and group from the left, and a condition is loosest of all.
A line has one reading at most, because the operator of least precedence outside the brackets tells
how it is cut. What is printed is read as it was meant if parentheses stand where C needs them.

* `C.tokens`: the tokens of a text;
* `C.Binds`, `C.Formula.Reads`: the operators, and the grammar;
* `C.Formula.isGrouped`: the parentheses that C needs are written;
* `C.depth`: brackets and precedence along a line of tokens;
* **`C.Formula.reads_text`**: the text of a formula is read as it;
* **`C.Formula.Reads.unique`**: a line of tokens is read as one formula;
* **`C.BinaryFunction.Reads.unique`**: and as one function.
-/

namespace LoopNest

namespace C

/-! ## Tokens -/

/-- A bracket or a separator, which is a token of its own. -/
def isMark (c : Char) : Bool := c ∈ ['(', ')', '[', ']', '\x7b', '\x7d', ';', ',']

/-- A character of signs. -/
def isSign (c : Char) : Bool := !isNameChar c && !isMark c && !c.isWhitespace

/-- Neighbours in one token: both are of a word, or both of a sign. -/
def adjoin (a b : Char) : Bool := isNameChar a && isNameChar b || isSign a && isSign b

/-- The tokens of a text, without the blanks between them. Words and signs go as far as they can, so
what opens a comment or stands for two signs is no sign of a formula. -/
def tokens (text : String) : List String :=
  ((text.toList.splitBy adjoin).filter fun w => !w.all Char.isWhitespace).map String.ofList

theorem tokens_append {s t : String}
    (h : ∀ a ∈ s.toList.getLast?, ∀ b ∈ t.toList.head?, adjoin a b = false) :
    tokens (s ++ t) = tokens s ++ tokens t := by
  rw [tokens, String.toList_append, List.splitBy_append h, List.filter_append, List.map_append]
  rfl

theorem adjoin_right_eq_false {b : Char} (hname : isNameChar b = false) (hsign : isSign b = false)
    (a : Char) : adjoin a b = false := by
  rw [adjoin, hname, hsign, Bool.and_false, Bool.and_false, Bool.or_false]

theorem adjoin_left_eq_false {a : Char} (hname : isNameChar a = false) (hsign : isSign a = false)
    (b : Char) : adjoin a b = false := by
  rw [adjoin, hname, hsign, Bool.false_and, Bool.false_and, Bool.or_false]

/-- A blank between two texts keeps their tokens apart. -/
theorem tokens_spaced (s t : String) : tokens (s ++ " " ++ t) = tokens s ++ tokens t := by
  have hright : tokens (s ++ " ") = tokens s := by
    rw [tokens_append fun a _ b hb => ?_]
    · exact List.append_nil _
    · obtain rfl := Option.some.inj hb
      exact adjoin_right_eq_false (by decide) (by decide) a
  rw [tokens_append fun a ha b _ => ?_, hright]
  rw [String.toList_append, List.getLast?_append] at ha
  obtain rfl := Option.some.inj ha
  exact adjoin_left_eq_false (by decide) (by decide) b

theorem tokens_paren (s : String) : tokens ("(" ++ s ++ ")") = "(" :: (tokens s ++ [")"]) := by
  rw [String.append_assoc, tokens_append fun a ha b _ => ?_, tokens_append fun a _ b hb => ?_]
  · rfl
  · obtain rfl := Option.some.inj hb
    exact adjoin_right_eq_false (by decide) (by decide) a
  · obtain rfl := Option.some.inj ha
    exact adjoin_left_eq_false (by decide) (by decide) b

/-- A word is one token. -/
theorem tokens_word {s : String} (hne : s.toList ≠ []) (h : ∀ c ∈ s.toList, isNameChar c = true) :
    tokens s = [s] := by
  have hchain : s.toList.IsChain fun a b => adjoin a b = true := by
    refine List.isChain_iff_forall_rel_of_append_cons_cons.2 fun a b xs ys hs => ?_
    have hmem : ∀ c ∈ [a, b], c ∈ s.toList := fun c hc =>
      hs ▸ List.mem_append_right xs (List.mem_append_left ys hc)
    rw [adjoin, h a (hmem a (by simp)), h b (hmem b (by simp))]
    rfl
  have hblank : s.toList.all Char.isWhitespace = false := by
    obtain ⟨c, hc⟩ := List.exists_mem_of_ne_nil _ hne
    refine List.all_eq_false.2 ⟨c, hc, fun hwhite => ?_⟩
    have hname := h c hc
    simp only [Char.isWhitespace, Bool.or_eq_true, decide_eq_true_eq] at hwhite
    obtain ((rfl | rfl) | rfl) | rfl := hwhite <;> cases hname
  rw [tokens, List.splitBy_of_isChain hne hchain, List.filter_singleton, hblank]
  exact congrArg (· :: []) String.ofList_toList

theorem number_chars (n : Nat) :
    (toString n).toList ≠ [] ∧ ∀ c ∈ (toString n).toList, isNameChar c = true := by
  rw [toList_number]
  exact ⟨Nat.toDigits_ne_nil, fun c hc => isNameChar_of_mem_toDigits hc⟩

theorem number_injective {m n : Nat} (h : toString m = toString n) : m = n := by
  have hdigits := congrArg String.toList h
  rw [toList_number, toList_number] at hdigits
  exact toDigits_injective (by decide) (by decide) hdigits

theorem not_isNameStart_of_isDigit {c : Char} (h : c.isDigit = true) : isNameStart c = false := by
  have hne : c ≠ '_' := by
    rintro rfl
    cases h
  have hname : isNameStart c = (decide ('A'.val ≤ c.val ∧ c.val ≤ 'Z'.val) ||
    (decide ('a'.val ≤ c.val) && decide (c.val ≤ 'z'.val)) || decide (c = '_')) := rfl
  simp only [Char.isDigit, Bool.and_eq_true, decide_eq_true_eq, ge_iff_le,
    UInt32.le_iff_toNat_le] at h
  simp [hname, hne, UInt32.le_iff_toNat_le] at h ⊢
  omega

/-- A number begins with a digit, and an identifier does not. -/
theorem not_isIdentifier_number (n : Nat) : ¬IsIdentifier (toString n) := by
  rintro ⟨c, cs, hcs, hc, -⟩
  have hdigit : c.isDigit = true := by
    refine Nat.isDigit_of_mem_toDigits (b := 10) (n := n) (by decide) (by decide) ?_
    rw [← toList_number, hcs]
    exact List.mem_cons_self
  rw [not_isNameStart_of_isDigit hdigit] at hc
  cases hc

/-! ## The grammar -/

/-- An identifier that may be given to something: no keyword. -/
def IsPlainName (s : String) : Prop := IsIdentifier s ∧ s ∉ keywords

/-- The sign of an operator, and how tightly it binds. -/
inductive Binds : String → FormulaOp → Nat → Prop
  | quot : Binds "/" .quot 5
  | rem : Binds "%" .rem 5
  | add : Binds "+" .add 4
  | sub : Binds "-" .sub 4
  | less : Binds "<" .less 3
  | differ : Binds "!=" .differ 2
  | both : Binds "&&" .both 1

/-- Tokens are read as a formula that binds as tightly as a level, or more tightly. Operators group
from the left. -/
inductive Formula.Reads : Nat → List String → Formula → Prop
  | name {s : String} (hs : IsPlainName s) : Reads 6 [s] (.name s)
  | lit (n : Nat) : Reads 6 [toString n] (.lit n)
  | paren {ts : List String} {f : Formula} (h : Reads 0 ts f) :
    Reads 6 ("(" :: (ts ++ [")"])) (.paren f)
  | op {s : String} {o : FormulaOp} {k : Nat} {ls rs : List String} {l r : Formula}
    (ho : Binds s o k) (hl : Reads k ls l) (hr : Reads (k + 1) rs r) :
    Reads k (ls ++ s :: rs) (.op o l r)
  | cond {ts ys ns : List String} {t y n : Formula} (ht : Reads 1 ts t) (hy : Reads 0 ys y)
    (hn : Reads 0 ns n) : Reads 0 (ts ++ "?" :: (ys ++ ":" :: ns)) (.cond t y n)
  | looser {k : Nat} {ts : List String} {f : Formula} (h : Reads (k + 1) ts f) : Reads k ts f

/-! ## Printing and reading -/

namespace Formula

/-- How tightly a formula binds. -/
def rank : Formula → Nat
  | name _ | lit _ | paren _ => 6
  | op .quot _ _ | op .rem _ _ => 5
  | op .add _ _ | op .sub _ _ => 4
  | op .less _ _ => 3
  | op .differ _ _ => 2
  | op .both _ _ => 1
  | cond _ _ _ => 0

/-- The parentheses that C needs are written: the left operand of an operator binds at least as
tightly, the right one more tightly, and so does the test of a condition. -/
def isGrouped : Formula → Bool
  | name _ | lit _ => true
  | op o l r =>
    (op o l r).rank ≤ l.rank && (op o l r).rank < r.rank && l.isGrouped && r.isGrouped
  | paren f => f.isGrouped
  | cond t y n => 0 < t.rank && t.isGrouped && y.isGrouped && n.isGrouped

/-- The names in a formula. -/
def names : Formula → List String
  | name s => [s]
  | lit _ => []
  | op _ l r => l.names ++ r.names
  | paren f => f.names
  | cond t y n => t.names ++ (y.names ++ n.names)

end Formula

theorem IsIdentifier.chars {s : String} (h : IsIdentifier s) :
    s.toList ≠ [] ∧ ∀ c ∈ s.toList, isNameChar c = true := by
  obtain ⟨c, cs, hs, hc, hcs⟩ := h
  have hname : isNameChar c = true := by
    simp only [isNameStart, isNameChar, Char.isAlphanum, Bool.or_eq_true] at hc ⊢
    exact hc.imp_left Or.inl
  rw [hs]
  exact ⟨List.cons_ne_nil c cs, List.forall_mem_cons.2 ⟨hname, hcs⟩⟩

theorem FormulaOp.binds (o : FormulaOp) (l r : Formula) :
    Binds o.symbol o (Formula.op o l r).rank := by
  cases o <;> constructor

theorem FormulaOp.tokens_symbol (o : FormulaOp) : tokens o.symbol = [o.symbol] := by
  cases o <;> decide

namespace Formula

section

variable {j k : Nat} {ts us : List String} {f g : Formula}

theorem Reads.mono (h : Reads k ts f) (hjk : j ≤ k) : Reads j ts f := by
  induction hjk with
  | refl => exact h
  | step _ ih => exact ih h.looser

/-- **The text of a formula is read as it**, if parentheses stand where they are needed. -/
theorem reads_text (hf : f.isGrouped = true) (hnames : ∀ s ∈ f.names, IsPlainName s) :
    Reads f.rank (tokens f.text) f := by
  induction f with
  | name s =>
    have hs := hnames s (List.mem_singleton_self s)
    rw [text, tokens_word hs.1.chars.1 hs.1.chars.2]
    exact .name hs
  | lit n =>
    rw [text, tokens_word (number_chars n).1 (number_chars n).2]
    exact .lit n
  | op o l r ihl ihr =>
    simp only [isGrouped, Bool.and_eq_true, decide_eq_true_eq] at hf
    obtain ⟨⟨⟨hleft, hright⟩, hl⟩, hr⟩ := hf
    obtain ⟨hnl, hnr⟩ := List.forall_mem_append.1 hnames
    rw [text, tokens_spaced, tokens_spaced, o.tokens_symbol, List.append_assoc]
    exact .op (o.binds l r) ((ihl hl hnl).mono hleft) ((ihr hr hnr).mono hright)
  | paren f ih =>
    rw [text, tokens_paren]
    exact .paren ((ih hf hnames).mono (Nat.zero_le _))
  | cond t y n iht ihy ihn =>
    simp only [isGrouped, Bool.and_eq_true, decide_eq_true_eq] at hf
    obtain ⟨⟨⟨hrank, ht⟩, hy⟩, hn⟩ := hf
    obtain ⟨hnt, hnames⟩ := List.forall_mem_append.1 hnames
    obtain ⟨hny, hnn⟩ := List.forall_mem_append.1 hnames
    have hspaced : (cond t y n).text =
        t.text ++ " " ++ "?" ++ " " ++ (y.text ++ " " ++ ":" ++ " " ++ n.text) := by
      simp [text, String.append_assoc]
    rw [hspaced, tokens_spaced, tokens_spaced, tokens_spaced, tokens_spaced, List.append_assoc,
      List.append_assoc]
    exact .cond ((iht ht hnt).mono hrank) ((ihy hy hny).mono (Nat.zero_le _))
      ((ihn hn hnn).mono (Nat.zero_le _))

end

end Formula

/-! ## Brackets and levels -/

/-- How tightly the sign of an operator binds, and `?`; other tokens do not cut what they stand
in. -/
def level (t : String) : Nat :=
  if t = "?" then 0
  else if t = "&&" then 1
  else if t = "!=" then 2
  else if t = "<" then 3
  else if t ∈ ["+", "-"] then 4
  else if t ∈ ["/", "%"] then 5
  else 6

/-- The depth behind a token, where `?` and `:` are a pair of brackets like parentheses. At depth
zero there may be no closing bracket, and nothing looser than `k`. -/
def depthAfter (k d : Nat) (t : String) : Option Nat :=
  if d = 0 ∧ level t < k then none
  else if t ∈ ["(", "?"] then some (d + 1)
  else if t ∈ [")", ":"] then if d = 0 then none else some (d - 1)
  else some d

/-- The depth behind some tokens. -/
def depth (k d : Nat) (ts : List String) : Option Nat := ts.foldlM (depthAfter k) d

section

variable {j k d e : Nat} {s t : String} {ts us : List String} {o : FormulaOp} {f g : Formula}

theorem depth_cons (k d : Nat) (t : String) (ts : List String) :
    depth k d (t :: ts) = (depthAfter k d t).bind fun e => depth k e ts := by
  rw [depth, List.foldlM_cons]
  rfl

theorem depth_append (k d : Nat) (ts us : List String) :
    depth k d (ts ++ us) = (depth k d ts).bind fun e => depth k e us := by
  rw [depth, List.foldlM_append]
  rfl

/-- Inside one more bracket every level may stand. -/
theorem depthAfter_lift (h : depthAfter k d t = some e) (j : Nat) :
    depthAfter j (d + 1) t = some (e + 1) := by
  unfold depthAfter at h ⊢
  grind

theorem depth_lift (h : depth k d ts = some e) (j : Nat) : depth j (d + 1) ts = some (e + 1) := by
  induction ts generalizing d with
  | nil => rw [← Option.some.inj h]; rfl
  | cons t ts ih =>
    rw [depth_cons] at h ⊢
    obtain ⟨c, hc, h⟩ := Option.bind_eq_some_iff.1 h
    rw [depthAfter_lift hc, Option.bind_some, ih h]

theorem depthAfter_mono (h : depthAfter k d t = some e) (hjk : j ≤ k) :
    depthAfter j d t = some e := by
  unfold depthAfter at h ⊢
  grind

theorem depth_mono (h : depth k d ts = some e) (hjk : j ≤ k) : depth j d ts = some e := by
  induction ts generalizing d with
  | nil => exact h
  | cons t ts ih =>
    rw [depth_cons] at h ⊢
    obtain ⟨c, hc, h⟩ := Option.bind_eq_some_iff.1 h
    rw [depthAfter_mono hc hjk, Option.bind_some, ih h]

/-! ## Tokens of a formula -/

theorem Binds.level_eq (h : Binds s o k) : level s = k := by
  cases h <;> decide

theorem Binds.rank_eq (h : Binds s o k) (l r : Formula) : (Formula.op o l r).rank = k := by
  cases h <;> rfl

theorem Binds.symbol_eq (h : Binds s o k) : o.symbol = s := by
  cases h <;> rfl

theorem FormulaOp.symbol_injective : Function.Injective FormulaOp.symbol := by
  intro o p h
  cases o <;> cases p <;> simp [FormulaOp.symbol] at h ⊢

theorem Binds.depthAfter_eq (h : Binds s o k) (hjk : j ≤ k) : depthAfter j d s = some d := by
  have hlevel := h.level_eq
  rw [depthAfter, if_neg (by omega), if_neg (by cases h <;> decide), if_neg (by cases h <;> decide)]

/-- The signs and brackets of formulas, and the end of a statement. -/
def signs : List String := ["?", ":", "(", ")", "&&", "!=", "<", "+", "-", "/", "%", ";"]

/-- Words and numbers are no signs. -/
theorem not_mem_signs (hne : s.toList ≠ []) (h : ∀ c ∈ s.toList, isNameChar c = true) :
    s ∉ signs := by
  have hsigns : (signs.all fun t => !t.toList.head?.any isNameChar) = true := by decide
  intro hmem
  obtain ⟨c, cs, hs⟩ := List.exists_cons_of_ne_nil hne
  have hhead := List.all_eq_true.1 hsigns s hmem
  rw [hs, List.head?_cons, Option.any_some, h c (hs ▸ List.mem_cons_self)] at hhead
  cases hhead

theorem depthAfter_of_not_mem (hs : s ∉ signs) (hk : k ≤ 6) : depthAfter k d s = some d := by
  simp only [signs, List.mem_cons, not_or] at hs
  have hlevel : level s = 6 := by simp [level, hs]
  rw [depthAfter, if_neg (by omega), if_neg (by simp [hs]), if_neg (by simp [hs])]

theorem depth_singleton (hs : s ∉ signs) : depth 6 0 [s] = some 0 := by
  rw [depth_cons, depthAfter_of_not_mem hs le_rfl]
  rfl

theorem IsPlainName.not_mem_signs (h : IsPlainName s) : s ∉ signs :=
  C.not_mem_signs h.1.chars.1 h.1.chars.2

theorem number_not_mem_signs (n : Nat) : toString n ∉ signs :=
  not_mem_signs (number_chars n).1 (number_chars n).2

/-- The brackets in a formula are closed in it, and outside of them nothing is looser than the
formula. -/
theorem Formula.Reads.depth_eq (h : Reads k ts f) : k ≤ 6 ∧ depth k 0 ts = some 0 := by
  induction h with
  | name hs => exact ⟨le_rfl, depth_singleton hs.not_mem_signs⟩
  | lit n => exact ⟨le_rfl, depth_singleton (number_not_mem_signs n)⟩
  | paren _ ih =>
    refine ⟨le_rfl, ?_⟩
    have hopen : depthAfter 6 0 "(" = some 1 := by decide
    rw [depth_cons, hopen, Option.bind_some, depth_append, depth_lift ih.2]
    decide
  | op ho _ _ ihl ihr =>
    refine ⟨ihl.1, ?_⟩
    rw [depth_append, ihl.2, Option.bind_some, depth_cons, ho.depthAfter_eq le_rfl,
      Option.bind_some]
    exact depth_mono ihr.2 (Nat.le_succ _)
  | @cond ts ys ns _ _ _ _ _ _ iht ihy ihn =>
    refine ⟨Nat.zero_le _, ?_⟩
    have hopen : depthAfter 0 0 "?" = some 1 := by decide
    have hclose : depthAfter 0 1 ":" = some 0 := by decide
    rw [depth_append, depth_mono iht.2 (Nat.zero_le 1), Option.bind_some, depth_cons, hopen,
      Option.bind_some, depth_append, depth_lift ihy.2, Option.bind_some, depth_cons, hclose,
      Option.bind_some, ihn.2]
  | looser _ ih => exact ⟨Nat.le_of_succ_le ih.1, depth_mono ih.2 (Nat.le_succ _)⟩

/-- What stands outside the brackets is not looser than the formula. -/
theorem exists_depthAfter {xs ys : List String} (h : depth k 0 (xs ++ t :: ys) = some e)
    (hxs : depth j 0 xs = some 0) : ∃ c, depthAfter k 0 t = some c := by
  rw [depth_append] at h
  obtain ⟨d, hd, h⟩ := Option.bind_eq_some_iff.1 h
  have hzero := (depth_mono hd (Nat.zero_le k)).symm.trans (depth_mono hxs (Nat.zero_le j))
  obtain rfl := Option.some.inj hzero
  rw [depth_cons] at h
  obtain ⟨c, hc, -⟩ := Option.bind_eq_some_iff.1 h
  exact ⟨c, hc⟩

theorem depthAfter_eq_none (h : level t < k) : depthAfter k 0 t = none := if_pos ⟨rfl, h⟩

/-- Two ways to cut a list are one if no first part goes on behind the other's cut. -/
theorem cut_unique {α : Type} {a b : α} {xs ys zs ws : List α} (h : xs ++ a :: ys = zs ++ b :: ws)
    (hxs : ∀ m, ys = m ++ b :: ws → zs ≠ xs ++ a :: m)
    (hzs : ∀ m, ws = m ++ a :: ys → xs ≠ zs ++ b :: m) : xs = zs ∧ a = b ∧ ys = ws := by
  obtain ⟨m, rfl, hm⟩ | ⟨m, rfl, hm⟩ := List.append_eq_append_iff.1 h
  · cases m with
    | nil => exact ⟨(List.append_nil xs).symm, List.cons.inj hm⟩
    | cons c m =>
      obtain ⟨rfl, hys⟩ := List.cons.inj hm
      exact absurd rfl (hxs m hys)
  · cases m with
    | nil => exact ⟨List.append_nil zs, (List.cons.inj hm).imp Eq.symm Eq.symm⟩
    | cons c m =>
      obtain ⟨rfl, hws⟩ := List.cons.inj hm
      exact absurd rfl (hzs m hws)

/-! ## One reading -/

namespace Formula

theorem Reads.of_name (h : Reads k ts (.name s)) : ts = [s] ∧ IsPlainName s := by
  generalize hf : Formula.name s = f at h
  induction h with
  | name hs => cases hf; exact ⟨rfl, hs⟩
  | looser _ ih => exact ih hf
  | _ => cases hf

theorem Reads.of_lit {n : Nat} (h : Reads k ts (.lit n)) : ts = [toString n] := by
  generalize hf : Formula.lit n = f at h
  induction h with
  | lit => cases hf; rfl
  | looser _ ih => exact ih hf
  | _ => cases hf

theorem Reads.of_paren (h : Reads k ts (.paren f)) :
    ∃ us, ts = "(" :: (us ++ [")"]) ∧ Reads 0 us f := by
  generalize hf : Formula.paren f = g at h
  induction h with
  | paren h => cases hf; exact ⟨_, rfl, h⟩
  | looser _ ih => exact ih hf
  | _ => cases hf

theorem Reads.of_op {l r : Formula} (h : Reads k ts (.op o l r)) :
    ∃ s j ls rs, ts = ls ++ s :: rs ∧ Binds s o j ∧ Reads j ls l ∧ Reads (j + 1) rs r := by
  generalize hf : Formula.op o l r = g at h
  induction h with
  | op ho hl hr => cases hf; exact ⟨_, _, _, _, rfl, ho, hl, hr⟩
  | looser _ ih => exact ih hf
  | _ => cases hf

theorem Reads.of_cond {t y n : Formula} (h : Reads k ts (.cond t y n)) :
    ∃ xs ys ns, ts = xs ++ "?" :: (ys ++ ":" :: ns) ∧ Reads 1 xs t ∧ Reads 0 ys y ∧
      Reads 0 ns n := by
  generalize hf : Formula.cond t y n = g at h
  induction h with
  | cond ht hy hn => cases hf; exact ⟨_, _, _, rfl, ht, hy, hn⟩
  | looser _ ih => exact ih hf
  | _ => cases hf

/-- A reading at a level is one at the rank of the formula. -/
theorem Reads.rank (h : Reads k ts f) : Reads f.rank ts f := by
  induction h with
  | name hs => exact .name hs
  | lit n => exact .lit n
  | paren h => exact .paren h
  | op ho hl hr =>
    rw [ho.rank_eq]
    exact .op ho hl hr
  | cond ht hy hn => exact .cond ht hy hn
  | looser _ ih => exact ih

/-- The operator that a formula is cut at stands outside the brackets. -/
theorem Reads.exists_cut (h : Reads k ts f) (hf : f.rank < 6) :
    ∃ xs t ys, ts = xs ++ t :: ys ∧ level t = f.rank ∧ depth f.rank 0 xs = some 0 := by
  cases f with
  | name | lit | paren => cases Nat.lt_irrefl 6 hf
  | op o l r =>
    obtain ⟨s, j, ls, rs, rfl, ho, hl, -⟩ := h.of_op
    rw [ho.rank_eq]
    exact ⟨ls, s, rs, rfl, ho.level_eq, hl.depth_eq.2⟩
  | cond t y n =>
    obtain ⟨xs, ys, ns, rfl, ht, -⟩ := h.of_cond
    exact ⟨xs, "?", _, rfl, if_pos rfl, depth_mono ht.depth_eq.2 (Nat.zero_le 1)⟩

theorem Reads.not_rank_lt (hf : Reads k ts f) (hg : Reads j ts g) : ¬f.rank < g.rank := by
  intro hlt
  obtain ⟨xs, t, ys, rfl, hlevel, hxs⟩ := hf.exists_cut (hlt.trans_le hg.rank.depth_eq.1)
  obtain ⟨c, hc⟩ := exists_depthAfter hg.rank.depth_eq.2 hxs
  rw [depthAfter_eq_none (hlevel ▸ hlt)] at hc
  cases hc

theorem Reads.rank_eq (hf : Reads k ts f) (hg : Reads j ts g) : f.rank = g.rank :=
  Nat.le_antisymm (Nat.le_of_not_lt (hg.not_rank_lt hf)) (Nat.le_of_not_lt (hf.not_rank_lt hg))

/-- A line of tokens is cut at one operator of its level. -/
theorem Reads.op_cut_unique {s s' : String} {o o' : FormulaOp} {ls rs ls' rs' : List String}
    {l r l' r' : Formula} (h : ls ++ s :: rs = ls' ++ s' :: rs') (hs : Binds s o k)
    (hs' : Binds s' o' k) (hl : Reads k ls l) (hr : Reads (k + 1) rs r) (hl' : Reads k ls' l')
    (hr' : Reads (k + 1) rs' r') : ls = ls' ∧ s = s' ∧ rs = rs' := by
  -- what a left operand would go on with stands outside the brackets of the right one, too
  have hcut : ∀ {s s' : String} {o o' : FormulaOp} {ls ls' m rs' : List String}, Binds s o k →
      Binds s' o' k → depth k 0 ls = some 0 → depth (k + 1) 0 (m ++ s' :: rs') = some 0 →
      depth k 0 ls' = some 0 → ls' ≠ ls ++ s :: m := by
    rintro s s' o o' ls _ m rs' hs hs' hls hrs hls' rfl
    rw [depth_append, hls, Option.bind_some, depth_cons, hs.depthAfter_eq le_rfl,
      Option.bind_some] at hls'
    obtain ⟨c, hc⟩ := exists_depthAfter hrs hls'
    rw [depthAfter_eq_none (hs'.level_eq ▸ Nat.lt_succ_self k)] at hc
    cases hc
  refine cut_unique h (fun m hm => ?_) fun m hm => ?_
  · exact hcut hs hs' hl.depth_eq.2 (hm ▸ hr.depth_eq.2) hl'.depth_eq.2
  · exact hcut hs' hs hl'.depth_eq.2 (hm ▸ hr'.depth_eq.2) hl.depth_eq.2

/-- A condition is cut at one pair of `?` and `:`. -/
theorem Reads.cond_cut_unique {xs ys zs xs' ys' zs' : List String} {t y t' y' : Formula}
    (h : xs ++ "?" :: (ys ++ ":" :: zs) = xs' ++ "?" :: (ys' ++ ":" :: zs')) (ht : Reads 1 xs t)
    (ht' : Reads 1 xs' t') (hy : Reads 0 ys y) (hy' : Reads 0 ys' y') :
    xs = xs' ∧ ys = ys' ∧ zs = zs' := by
  have hcut : ∀ {k : Nat} {s : String} {us vs m : List String}, depthAfter k 0 s = none →
      depth k 0 us = some 0 → depth k 0 vs = some 0 → vs ≠ us ++ s :: m := by
    rintro k s us _ m hs hus hvs rfl
    obtain ⟨c, hc⟩ := exists_depthAfter hvs hus
    rw [hs] at hc
    cases hc
  have hopen : depthAfter 1 0 "?" = none := by decide
  have hclose : depthAfter 0 0 ":" = none := by decide
  obtain ⟨hxs, -, hrest⟩ := cut_unique h (fun m _ => hcut hopen ht.depth_eq.2 ht'.depth_eq.2)
    fun m _ => hcut hopen ht'.depth_eq.2 ht.depth_eq.2
  obtain ⟨hys, -, hzs⟩ := cut_unique hrest (fun m _ => hcut hclose hy.depth_eq.2 hy'.depth_eq.2)
    fun m _ => hcut hclose hy'.depth_eq.2 hy.depth_eq.2
  exact ⟨hxs, hys, hzs⟩

theorem Reads.name_ne_lit {n : Nat} (hs : Reads k ts (.name s)) : ¬Reads j ts (.lit n) := by
  intro hn
  obtain ⟨rfl, hs, -⟩ := hs.of_name
  obtain rfl : s = toString n := (List.cons.inj hn.of_lit).1
  exact not_isIdentifier_number n hs

theorem Reads.singleton_ne_paren : ¬Reads k [s] (.paren f) := by
  intro h
  obtain ⟨us, hus, -⟩ := h.of_paren
  simp at hus

theorem rank_op (o : FormulaOp) (l r : Formula) :
    0 < (Formula.op o l r).rank ∧ (Formula.op o l r).rank < 6 := by
  cases o <;> simp [Formula.rank]

/-- **A line of tokens is read as one formula.** -/
theorem Reads.unique (hf : Reads k ts f) (hg : Reads j ts g) : f = g := by
  have hrank := hf.rank_eq hg
  induction f generalizing k j ts g with
  | name s =>
    cases g with
    | name t =>
      obtain ⟨rfl, -⟩ := hf.of_name
      rw [(List.cons.inj hg.of_name.1).1]
    | lit n => cases hf.name_ne_lit hg
    | paren g => cases Reads.singleton_ne_paren (hf.of_name.1 ▸ hg)
    | op o l r => exact absurd hrank (rank_op o l r).2.ne'
    | cond => cases hrank
  | lit n =>
    obtain rfl := hf.of_lit
    cases g with
    | name s => cases hg.name_ne_lit hf
    | lit m => rw [number_injective (List.cons.inj hg.of_lit).1]
    | paren g => cases Reads.singleton_ne_paren hg
    | op o l r => exact absurd hrank (rank_op o l r).2.ne'
    | cond => cases hrank
  | op o l r ihl ihr =>
    obtain ⟨s, i, ls, rs, rfl, ho, hl, hr⟩ := hf.of_op
    cases g with
    | name | lit | paren => exact absurd hrank (rank_op o l r).2.ne
    | cond => exact absurd hrank (rank_op o l r).1.ne'
    | op o' l' r' =>
      obtain ⟨s', i', ls', rs', h, ho', hl', hr'⟩ := hg.of_op
      obtain rfl : i = i' := (ho.rank_eq l r).symm.trans (hrank.trans (ho'.rank_eq l' r'))
      obtain ⟨rfl, rfl, rfl⟩ := Reads.op_cut_unique h ho ho' hl hr hl' hr'
      rw [FormulaOp.symbol_injective (ho.symbol_eq.trans ho'.symbol_eq.symm),
        ihl hl hl' (hl.rank_eq hl'), ihr hr hr' (hr.rank_eq hr')]
  | paren f ih =>
    obtain ⟨us, rfl, hus⟩ := hf.of_paren
    cases g with
    | name s => cases Reads.singleton_ne_paren (hg.of_name.1 ▸ hf)
    | lit n => cases Reads.singleton_ne_paren (hg.of_lit ▸ hf)
    | paren g =>
      obtain ⟨vs, h, hvs⟩ := hg.of_paren
      obtain rfl := List.append_cancel_right (List.cons.inj h).2
      rw [ih hus hvs (hus.rank_eq hvs)]
    | op o l r => exact absurd hrank (rank_op o l r).2.ne'
    | cond => cases hrank
  | cond t y n iht ihy ihn =>
    obtain ⟨xs, ys, zs, rfl, ht, hy, hn⟩ := hf.of_cond
    cases g with
    | name | lit | paren => cases hrank
    | op o l r => exact absurd hrank (rank_op o l r).1.ne
    | cond t' y' n' =>
      obtain ⟨xs', ys', zs', h, ht', hy', hn'⟩ := hg.of_cond
      obtain ⟨rfl, rfl, rfl⟩ := Reads.cond_cut_unique h ht ht' hy hy'
      rw [iht ht ht' (ht.rank_eq ht'), ihy hy hy' (hy.rank_eq hy'), ihn hn hn' (hn.rank_eq hn')]

theorem Reads.semicolon_not_mem (h : Reads k ts f) : ";" ∉ ts := by
  have hsemicolon : ";" ∈ signs := by decide
  induction h with
  | name hs =>
    rw [List.mem_singleton]
    rintro rfl
    exact hs.not_mem_signs hsemicolon
  | lit n =>
    rw [List.mem_singleton]
    intro h
    exact number_not_mem_signs n (h ▸ hsemicolon)
  | paren _ ih => simp [ih]
  | op ho _ _ ihl ihr => cases ho <;> simp [ihl, ihr]
  | cond _ _ _ iht ihy ihn => simp [iht, ihy, ihn]
  | looser _ ih => exact ih

end Formula

end

/-! ## Functions -/

/-- A function of two numbers of 64 bits, with one local variable. -/
@[ext]
structure BinaryFunction where
  name : String
  first : String
  second : String
  localName : String
  localValue : Formula
  result : Formula
deriving DecidableEq

namespace BinaryFunction

/-- What a function and what is in it are called. -/
def allNames (f : BinaryFunction) : List String := [f.name, f.first, f.second, f.localName]

/-- Tokens are read as the definition of a function. Its names are different, and none is that of
the type. -/
def Reads (tokens : List String) (f : BinaryFunction) : Prop :=
  (∀ s ∈ f.allNames, IsPlainName s) ∧ ("int64_t" :: f.allNames).Nodup ∧
  ∃ ts us, f.localValue.Reads 0 ts ∧ f.result.Reads 0 us ∧
    tokens = ["static", "inline", "int64_t", f.name, "(", "int64_t", f.first, ",", "int64_t",
      f.second, ")", "\x7b", "int64_t", f.localName, "="] ++
        (ts ++ ";" :: "return" :: (us ++ ";" :: ["\x7d"]))

/-- **Tokens are read as one function.** -/
theorem Reads.unique {ts : List String} {f g : BinaryFunction} (hf : f.Reads ts)
    (hg : g.Reads ts) : f = g := by
  obtain ⟨-, -, ts, us, hts, hus, rfl⟩ := hf
  obtain ⟨-, -, vs, ws, hvs, hws, h⟩ := hg
  simp only [List.cons_append, List.nil_append, List.cons.injEq, true_and] at h
  obtain ⟨hname, hfirst, hsecond, hlocal, h⟩ := h
  -- no formula goes on behind a semicolon
  have hcut : ∀ {k : Nat} {f : Formula} {xs zs m : List String}, f.Reads k zs →
      zs ≠ xs ++ ";" :: m := by
    rintro k f xs _ m hzs rfl
    exact hzs.semicolon_not_mem (by simp)
  obtain ⟨rfl, -, h⟩ := cut_unique h (fun m _ => hcut hvs) fun m _ => hcut hts
  obtain ⟨rfl, -, -⟩ := cut_unique (List.cons.inj h).2 (fun m _ => hcut hws) fun m _ => hcut hus
  exact BinaryFunction.ext hname hfirst hsecond hlocal (hts.unique hvs) (hus.unique hws)

end BinaryFunction

end C

end LoopNest
