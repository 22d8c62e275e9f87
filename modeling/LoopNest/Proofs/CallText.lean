import LoopNest.C.Emit
import LoopNest.Proofs.PrintedLiterals

/-!
# Calls in a text

A function is called where its name stands with a parenthesis right after it, and does not go on
from a word before it. Where a text is put together of pieces, its calls are those of the pieces, if
what stands between them begins with a character that neither goes on with a name nor opens a
parenthesis, and holds no name in front of a parenthesis itself.

* `C.calls`: the number of calls in a text;
* `C.IsName`: what the name of a function looks like;
* `C.joins`: what may stand between pieces;
* **`C.callsFrom_append`**, **`C.callsFrom_joins`**: the calls of pieces put together;
* **`C.callsFrom_callee`**: the name of a function in front of a parenthesis.
-/

namespace LoopNest

namespace C

/-! ## Counting -/

/-- The calls of a function in the rest of a text. A name that began earlier may run up to here. -/
def callsFrom (f : List Char) : Bool → List Char → Nat
  | _, [] => 0
  | inName, c :: cs =>
    (if inName = false ∧ f ++ ['('] <+: c :: cs then 1 else 0) + callsFrom f (isNameChar c) cs

/-- The calls of a function in a text. -/
def calls (f text : String) : Nat := callsFrom f.toList false text.toList

/-- The characters of a name. -/
def IsName (f : List Char) : Prop := f ≠ [] ∧ ∀ c ∈ f, isNameChar c = true

instance (f : List Char) : Decidable (IsName f) := inferInstanceAs (Decidable (_ ∧ _))

/-- No name stands in front of a parenthesis, and none runs up to the end. -/
def holdsNoCall : Bool → List Char → Bool
  | inName, [] => !inName
  | inName, c :: cs => !(inName && c == '(') && holdsNoCall (isNameChar c) cs

/-- What may stand between pieces of a text: the first character ends what is before it. -/
def joins : List Char → Bool
  | [] => false
  | c :: cs => !isNameChar c && c != '(' && holdsNoCall false cs

/-! ## Beginnings -/

section

variable {α : Type} {c : α} {p xs ys : List α}

theorem prefix_append_cons_iff (hc : c ∉ p) : p <+: xs ++ c :: ys ↔ p <+: xs := by
  induction xs generalizing p with
  | nil =>
    cases p with
    | nil => simp
    | cons a p =>
      rw [List.nil_append, List.cons_prefix_cons, List.prefix_nil]
      constructor
      · rintro ⟨rfl, -⟩
        exact absurd List.mem_cons_self hc
      · intro h
        exact absurd h (List.cons_ne_nil a p)
  | cons x xs ih =>
    cases p with
    | nil => simp
    | cons a p =>
      rw [List.cons_append, List.cons_prefix_cons, List.cons_prefix_cons,
        ih fun h => hc (List.mem_cons_of_mem a h)]

theorem concat_prefix_append_cons_iff (hc : c ∉ p) :
    p ++ [c] <+: xs ++ c :: ys ↔ p ++ [c] <+: xs ++ [c] := by
  induction xs generalizing p with
  | nil =>
    cases p with
    | nil => simp
    | cons a p =>
      have hne : a ≠ c := fun h => hc (h ▸ List.mem_cons_self)
      simp [hne]
  | cons x xs ih =>
    cases p with
    | nil => simp
    | cons a p =>
      rw [List.cons_append, List.cons_append, List.cons_append, List.cons_prefix_cons,
        List.cons_prefix_cons, ih fun h => hc (List.mem_cons_of_mem a h)]

end

/-! ## Pieces -/

section

variable {f : List Char} (hf : IsName f) {w : Bool} {c : Char} {xs ys : List Char}

include hf

theorem IsName.open_not_mem : '(' ∉ f := fun h => absurd (hf.2 _ h) (by decide)

/-- A call does not begin with a character that is in no name. -/
theorem not_prefix_cons (hc : isNameChar c = false) : ¬f ++ ['('] <+: c :: ys := by
  obtain ⟨a, g, rfl⟩ := List.exists_cons_of_ne_nil hf.1
  rw [List.cons_append, List.cons_prefix_cons]
  rintro ⟨rfl, -⟩
  exact absurd (hf.2 a List.mem_cons_self) (by simp [hc])

theorem callsFrom_cons (hc : isNameChar c = false) :
    callsFrom f w (c :: ys) = callsFrom f false ys := by
  rw [callsFrom, if_neg fun h => not_prefix_cons hf hc h.2, hc, Nat.zero_add]

/-- **A character that ends a name divides a text.** -/
theorem callsFrom_append (hc : isNameChar c = false) (hopen : c ≠ '(') :
    callsFrom f w (xs ++ c :: ys) = callsFrom f w xs + callsFrom f false ys := by
  have hmem : c ∉ f ++ ['('] := by
    rw [List.mem_append, List.mem_singleton]
    rintro (h | h)
    · exact absurd (hf.2 c h) (by simp [hc])
    · exact hopen h
  induction xs generalizing w with
  | nil => rw [List.nil_append, callsFrom_cons hf hc, callsFrom, Nat.zero_add]
  | cons a xs ih =>
    have hbegin : f ++ ['('] <+: (a :: xs) ++ c :: ys ↔ f ++ ['('] <+: a :: xs :=
      prefix_append_cons_iff hmem
    rw [List.cons_append] at hbegin
    rw [List.cons_append, callsFrom, callsFrom, ih, Nat.add_assoc]
    simp only [hbegin]

/-- **So does a parenthesis**, with a name in front of it. -/
theorem callsFrom_callee : callsFrom f w (xs ++ '(' :: ys) =
    callsFrom f w (xs ++ ['(']) + callsFrom f false ys := by
  induction xs generalizing w with
  | nil =>
    rw [List.nil_append, List.nil_append, callsFrom_cons hf (by decide),
      callsFrom_cons hf (by decide), callsFrom, Nat.zero_add]
  | cons a xs ih =>
    have hbegin : f ++ ['('] <+: (a :: xs) ++ '(' :: ys ↔ f ++ ['('] <+: (a :: xs) ++ ['('] :=
      concat_prefix_append_cons_iff hf.open_not_mem
    rw [List.cons_append, List.cons_append] at hbegin
    rw [List.cons_append, List.cons_append, callsFrom, callsFrom, ih, Nat.add_assoc]
    simp only [hbegin]

omit hf in
/-- Without a parenthesis there is no call. -/
theorem callsFrom_of_not_mem (h : '(' ∉ xs) : callsFrom f w xs = 0 := by
  induction xs generalizing w with
  | nil => rfl
  | cons c xs ih =>
    have hnot : ¬f ++ ['('] <+: c :: xs := fun hp =>
      h (hp.subset (List.mem_append_right f (List.mem_singleton_self _)))
    rw [callsFrom, if_neg fun hcall => hnot hcall.2, ih fun hmem => h (List.mem_cons_of_mem c hmem)]

omit hf in
theorem not_prefix_of_holdsNoCall {g : List Char} (hg : ∀ c ∈ g, isNameChar c = true)
    (hxs : holdsNoCall true xs = true) : ¬g ++ ['('] <+: xs ++ ys := by
  induction xs generalizing g with
  | nil => exact absurd hxs (by decide)
  | cons c xs ih =>
    simp only [holdsNoCall, Bool.true_and, Bool.and_eq_true, Bool.not_eq_true', beq_eq_false_iff_ne]
      at hxs
    cases g with
    | nil =>
      rw [List.nil_append, List.cons_append, List.cons_prefix_cons]
      exact fun h => hxs.1 h.1.symm
    | cons a g =>
      obtain ⟨ha, hg⟩ := List.forall_mem_cons.1 hg
      rw [List.cons_append, List.cons_append, List.cons_prefix_cons]
      rintro ⟨rfl, hp⟩
      exact ih hg (ha ▸ hxs.2) hp

/-- What holds no call may stand at the beginning. -/
theorem callsFrom_of_holdsNoCall (hxs : holdsNoCall w xs = true) :
    callsFrom f w (xs ++ ys) = callsFrom f false ys := by
  induction xs generalizing w with
  | nil =>
    obtain rfl : w = false := by simpa [holdsNoCall] using hxs
    rfl
  | cons c xs ih =>
    simp only [holdsNoCall, Bool.and_eq_true] at hxs
    have hnot : ¬f ++ ['('] <+: c :: (xs ++ ys) := by
      obtain ⟨a, g, rfl⟩ := List.exists_cons_of_ne_nil hf.1
      obtain ⟨ha, hg⟩ := List.forall_mem_cons.1 hf.2
      rw [List.cons_append, List.cons_prefix_cons]
      rintro ⟨rfl, hp⟩
      exact not_prefix_of_holdsNoCall hg (ha ▸ hxs.2) hp
    rw [List.cons_append, callsFrom, if_neg fun h => hnot h.2, ih hxs.2, Nat.zero_add]

/-- **The calls of pieces put together** are those of the pieces. -/
theorem callsFrom_joins {js : List Char} (hjs : joins js = true) :
    callsFrom f w (xs ++ (js ++ ys)) = callsFrom f w xs + callsFrom f false ys := by
  cases js with
  | nil => exact absurd hjs (by decide)
  | cons c js =>
    simp only [joins, Bool.and_eq_true, Bool.not_eq_true', bne_iff_ne] at hjs
    rw [List.cons_append, callsFrom_append hf hjs.1.1 hjs.1.2, callsFrom_of_holdsNoCall hf hjs.2]

/-- The end of a text. -/
theorem callsFrom_joins_nil {js : List Char} (hjs : joins js = true) :
    callsFrom f w (xs ++ js) = callsFrom f w xs := by
  have h : callsFrom f w (xs ++ (js ++ [])) = callsFrom f w xs + callsFrom f false [] :=
    callsFrom_joins hf hjs
  rwa [List.append_nil, callsFrom, Nat.add_zero] at h

end

/-! ## Names in front of a parenthesis -/

/-- A name in front of a parenthesis is a call of this name, and of no other. -/
theorem callsFrom_name {f g : List Char} (hf : IsName f) (hg : IsName g) :
    callsFrom f false (g ++ ['(']) = if g = f then 1 else 0 := by
  have hrest : ∀ {h : List Char}, (∀ c ∈ h, isNameChar c = true) →
      callsFrom f true (h ++ ['(']) = 0 := by
    intro h hh
    induction h with
    | nil => rfl
    | cons c h ih =>
      obtain ⟨hc, hh⟩ := List.forall_mem_cons.1 hh
      rw [List.cons_append, callsFrom, if_neg fun h => absurd h.1 (by decide), hc, ih hh]
  have hbegin : f ++ ['('] <+: g ++ ['('] ↔ g = f := by
    rw [List.prefix_concat_iff]
    constructor
    · rintro (h | h)
      · exact (List.append_cancel_right h).symm
      · exact absurd (h.subset (List.mem_append_right f (List.mem_singleton_self _)))
          hg.open_not_mem
    · rintro rfl
      exact .inl rfl
  obtain ⟨a, h, rfl⟩ := List.exists_cons_of_ne_nil hg.1
  obtain ⟨ha, hh⟩ := List.forall_mem_cons.1 hg.2
  rw [List.cons_append] at hbegin ⊢
  rw [callsFrom, ha, hrest hh, Nat.add_zero]
  simp only [hbegin, true_and]

end C

end LoopNest
