import LoopNest.Proofs.CallText
import LoopNest.Proofs.Folding
import LoopNest.Proofs.PrintedExprs

/-!
# Calls as they are written

The text of an expression in C holds the calls of the expression. Those in an operand of `min` or
`max` it holds more than once, since there is no such operator in C and the operands are written
twice. Folding neither adds nor drops a call.

* `C.Names.Spelled`: identifiers are made of the characters of names;
* `Expr.callees`, `Expr.written`: the calls of an expression, and those of its text;
* `Expr.doubled`: the calls in operands that are written twice;
* `Expr.asides`, `OnlyCalled`: a function that is only called;
* `Repeats`: what is written more often than it is called;
* **`Expr.calls_textC`**: the calls in the text;
* **`Expr.repeats`**, **`Expr.written_fold`**.
-/

namespace LoopNest

/-! ## Identifiers -/

namespace C

theorem toList_number (n : Nat) : (toString n).toList = Nat.toDigits 10 n := by
  rw [Nat.toString_eq_repr, Nat.repr_eq_ofList_toDigits, String.toList_ofList]

theorem isNameChar_of_mem_toDigits {n : Nat} {c : Char} (h : c ∈ Nat.toDigits 10 n) :
    isNameChar c = true := by
  simp [isNameChar, Char.isAlphanum, Nat.isDigit_of_mem_toDigits (by omega) (by omega) h]

theorem identifier_chars (hint : String) : ∀ c ∈ (identifier hint).toList, isNameChar c = true := by
  have hmap : ∀ c ∈ hint.toList.map fun c => if isNameChar c then c else '_',
      isNameChar c = true := by
    intro c hc
    obtain ⟨d, -, rfl⟩ := List.mem_map.1 hc
    split
    · assumption
    · decide
  unfold identifier
  split
  · decide
  · next c cs h =>
    rw [h] at hmap
    rw [String.toList_ofList]
    split
    · exact List.forall_mem_cons.2 ⟨by decide, hmap⟩
    · exact hmap

section

variable {base : String} (hbase : ∀ c ∈ base.toList, isNameChar c = true)

include hbase

theorem candidate_chars (k : Nat) : ∀ c ∈ (candidate base k).toList, isNameChar c = true := by
  cases k with
  | zero => exact hbase
  | succ k =>
    rw [candidate, String.toList_append, String.toList_append, toList_number]
    exact List.forall_mem_append.2 ⟨List.forall_mem_append.2 ⟨hbase, by decide⟩,
      fun c hc => isNameChar_of_mem_toDigits hc⟩

theorem freeFrom_chars (taken : List String) (n k : Nat) :
    ∀ c ∈ (freeFrom taken base n k).toList, isNameChar c = true := by
  induction n generalizing k with
  | zero => exact candidate_chars hbase k
  | succ n ih =>
    rw [freeFrom]
    split
    · exact ih (k + 1)
    · exact candidate_chars hbase k

end

namespace Names

/-- All identifiers of variables are made of the characters of names. -/
def Spelled (n : Names) : Prop := ∀ p ∈ n.given, ∀ c ∈ p.2.toList, isNameChar c = true

theorem spelled_empty : empty.Spelled := List.forall_mem_nil _

theorem Spelled.add {n : Names} (h : n.Spelled) (v : Var) : (n.add v).Spelled := by
  rw [Names.add]
  split
  · exact h
  · exact List.forall_mem_cons.2 ⟨freeFrom_chars (identifier_chars v.name) _ _ _, h⟩

theorem Spelled.addAll {n : Names} (h : n.Spelled) (vs : List Var) : (n.addAll vs).Spelled := by
  induction vs generalizing n with
  | nil => exact h
  | cons v vs ih => exact ih (h.add v)

/-- An identifier holds no parenthesis. -/
theorem Spelled.open_not_mem {n : Names} (h : n.Spelled) (v : Var) : '(' ∉ (n.of v).toList := by
  rw [of, find?]
  cases hfind : n.given.find? fun p => p.1 = v with
  | none => simp
  | some p => exact fun hmem => absurd (h p (List.mem_of_find?_eq_some hfind) _ hmem) (by decide)

end Names

end C

/-! ## Literals -/

theorem Word.open_not_mem_text (n : Word) : '(' ∉ (text n).toList := fun h =>
  absurd ((text_chars n).2 _ h) (by decide)

theorem Binary64.open_not_mem_textC (x : Binary64) : '(' ∉ x.textC.toList := by
  rcases x.text_cases with ⟨-, h⟩ | ⟨-, h⟩ | ⟨-, h⟩ | ⟨hshape, h⟩
  · rw [h]; decide
  · rw [h]; decide
  · rw [h]; decide
  · rw [h, String.toList_append, List.mem_append]
    rintro (hmem | hmem)
    · exact absurd (hshape.2.1 _ hmem) (by decide)
    · exact absurd hmem (by decide)

/-! ## The calls of an expression -/

/-- The operator is a choice between its operands, and both are written twice. -/
def Operator.chooses : Operator → Bool
  | min | max => true
  | _ => false

/-- The routine of an operator in front of a parenthesis. -/
def Operator.asides (op : Operator) : List String :=
  (C.Routine.ofOperator? op).toList.map fun h => h.name ++ "("

namespace Expr

/-- The functions that an expression calls, once for each call. -/
def callees (e : Expr) : List String := e.calls.map Prod.fst

mutual

/-- The functions that the text of an expression calls, once for each call in the text. -/
def written : Expr → List String
  | int _ | float _ | str _ | var _ => []
  | binary op a b =>
    if op.chooses then a.written ++ b.written ++ (a.written ++ b.written)
    else a.written ++ b.written
  | cast _ a => a.written
  | load _ is => writtenAll is
  | call _ f as => f :: writtenAll as

/-- The functions that the texts of expressions call. -/
def writtenAll : List Expr → List String
  | [] => []
  | e :: es => e.written ++ writtenAll es

end

mutual

/-- The functions called in operands that are written twice. -/
def doubled : Expr → List String
  | int _ | float _ | str _ | var _ => []
  | binary op a b => if op.chooses then a.callees ++ b.callees else a.doubled ++ b.doubled
  | cast _ a => a.doubled
  | load _ is => doubledAll is
  | call _ _ as => doubledAll as

/-- The functions called in operands that are written twice in expressions. -/
def doubledAll : List Expr → List String
  | [] => []
  | e :: es => e.doubled ++ doubledAll es

end

mutual

/-- What the text of an expression holds besides its calls, names, numbers and signs: quoted texts
and routines. -/
def asides : Expr → List String
  | int _ | float _ | var _ => []
  | str s => [Text.quote s]
  | binary op a b => op.asides ++ (a.asides ++ b.asides)
  | cast _ a => a.asides
  | load _ is => asidesAll is
  | call _ _ as => asidesAll as

/-- What the texts of expressions hold besides. -/
def asidesAll : List Expr → List String
  | [] => []
  | e :: es => e.asides ++ asidesAll es

end

section

variable (op : Operator) (a b : Expr) (t : ElemType) (v : Var) (f : String) (es : List Expr)

theorem map_fst_callsAll : (callsAll es).map Prod.fst = es.flatMap callees := by
  induction es with
  | nil => rfl
  | cons e es ih => rw [callsAll, List.map_append, ih, List.flatMap_cons, callees]

theorem writtenAll_eq_flatMap : writtenAll es = es.flatMap written := by
  induction es with
  | nil => rfl
  | cons e es ih => rw [writtenAll, ih, List.flatMap_cons]

theorem doubledAll_eq_flatMap : doubledAll es = es.flatMap doubled := by
  induction es with
  | nil => rfl
  | cons e es ih => rw [doubledAll, ih, List.flatMap_cons]

theorem asidesAll_eq_flatMap : asidesAll es = es.flatMap asides := by
  induction es with
  | nil => rfl
  | cons e es ih => rw [asidesAll, ih, List.flatMap_cons]

@[simp] theorem callees_binary : (binary op a b).callees = a.callees ++ b.callees := by
  rw [callees, calls, List.map_append, callees, callees]

@[simp] theorem callees_load : (load v es).callees = es.flatMap callees := by
  rw [callees, calls, map_fst_callsAll]

@[simp] theorem callees_call : (call t f es).callees = f :: es.flatMap callees := by
  rw [callees, calls, List.map_cons, map_fst_callsAll]

@[simp] theorem written_load : (load v es).written = es.flatMap written :=
  writtenAll_eq_flatMap es

@[simp] theorem written_call : (call t f es).written = f :: es.flatMap written :=
  congrArg (f :: ·) (writtenAll_eq_flatMap es)

@[simp] theorem doubled_load : (load v es).doubled = es.flatMap doubled :=
  doubledAll_eq_flatMap es

@[simp] theorem doubled_call : (call t f es).doubled = es.flatMap doubled :=
  doubledAll_eq_flatMap es

@[simp] theorem asides_load : (load v es).asides = es.flatMap asides :=
  asidesAll_eq_flatMap es

@[simp] theorem asides_call : (call t f es).asides = es.flatMap asides :=
  asidesAll_eq_flatMap es

end

/-- What is called is written. -/
theorem mem_written_iff {f : String} {e : Expr} : f ∈ e.written ↔ f ∈ e.callees := by
  have hlist : ∀ {es : List Expr}, (∀ e ∈ es, f ∈ e.written ↔ f ∈ e.callees) →
      (f ∈ es.flatMap written ↔ f ∈ es.flatMap callees) := by
    intro es hes
    simp only [List.mem_flatMap]
    exact exists_congr fun e => and_congr_right (hes e)
  induction e using inductionOn with
  | int | float | str | var => exact Iff.rfl
  | binary op a b iha ihb =>
    rw [written, callees_binary, List.mem_append]
    split <;> simp only [List.mem_append, or_self, iha, ihb]
  | cast t a iha => exact iha
  | load v is ih => rw [written_load, callees_load, hlist ih]
  | call t g as ih => rw [written_call, callees_call, List.mem_cons, List.mem_cons, hlist ih]

end Expr

/-! ## Repeated calls -/

/-- A function is written at least as often as it is called. It is written just as often, and not
where it is tested again and again, unless it is called in a repeated place. -/
structure Repeats (f : String) (called written tested repeated : List String) : Prop where
  le : called.count f ≤ written.count f
  iff : written.count f = called.count f ∧ f ∉ tested ↔ f ∉ repeated

namespace Repeats

variable {f : String} {c w t d c' w' t' d' : List String}

theorem nil : Repeats f [] [] [] [] := ⟨le_rfl, by simp⟩

theorem append (h : Repeats f c w t d) (h' : Repeats f c' w' t' d') :
    Repeats f (c ++ c') (w ++ w') (t ++ t') (d ++ d') := by
  have hle := h.le
  have hle' := h'.le
  refine ⟨?_, ?_⟩
  · rw [List.count_append, List.count_append]
    omega
  · rw [List.count_append, List.count_append, List.mem_append, List.mem_append, not_or, not_or,
      ← h.iff, ← h'.iff]
    constructor
    · rintro ⟨hcount, ht, ht'⟩
      exact ⟨⟨by omega, ht⟩, by omega, ht'⟩
    · rintro ⟨⟨hcount, ht⟩, hcount', ht'⟩
      exact ⟨by omega, ht, ht'⟩

/-- What is written twice is repeated wherever it is called. -/
theorem twice (h : Repeats f c w [] d) (hmem : f ∈ w ↔ f ∈ c) : Repeats f c (w ++ w) [] c := by
  have hle := h.le
  have hnone : w.count f = 0 ↔ f ∉ c := List.count_eq_zero.trans hmem.not
  refine ⟨?_, ?_⟩
  · rw [List.count_append]
    omega
  · rw [List.count_append, ← hnone]
    simp only [List.not_mem_nil, not_false_iff, and_true]
    omega

theorem flatMap {α : Type} {as : List α} {c w t d : α → List String}
    (h : ∀ a ∈ as, Repeats f (c a) (w a) (t a) (d a)) :
    Repeats f (as.flatMap c) (as.flatMap w) (as.flatMap t) (as.flatMap d) := by
  induction as with
  | nil => exact nil
  | cons a as ih =>
    obtain ⟨ha, has⟩ := List.forall_mem_cons.1 h
    simp only [List.flatMap_cons]
    exact ha.append (ih has)

end Repeats

/-- A list of expressions repeats what one of them repeats. -/
theorem Repeats.exprs {f : String} {es : List Expr}
    (hes : ∀ e ∈ es, Repeats f e.callees e.written [] e.doubled) :
    Repeats f (es.flatMap Expr.callees) (es.flatMap Expr.written) [] (es.flatMap Expr.doubled) := by
  have hnil : es.flatMap (fun _ => ([] : List String)) = [] :=
    List.flatMap_eq_nil_iff.2 fun _ _ => rfl
  exact hnil ▸ Repeats.flatMap hes

/-- **An expression is written with its calls, and only those in operands of a choice are
repeated.** -/
theorem Expr.repeats (f : String) (e : Expr) : Repeats f e.callees e.written [] e.doubled := by
  induction e using inductionOn with
  | int | float | str | var => exact .nil
  | binary op a b iha ihb =>
    have hab := iha.append ihb
    rw [callees_binary, written, doubled]
    split
    · refine hab.twice ?_
      rw [List.mem_append, List.mem_append, mem_written_iff, mem_written_iff]
    · exact hab
  | cast t a iha => exact iha
  | load v is ih =>
    rw [callees_load, written_load, doubled_load]
    exact .exprs ih
  | call t g as ih =>
    have h := Repeats.exprs ih
    rw [callees_call, written_call, doubled_call]
    refine ⟨?_, ?_⟩
    · rw [List.count_cons, List.count_cons]
      exact Nat.add_le_add_right h.le _
    · rw [List.count_cons, List.count_cons, Nat.add_right_cancel_iff]
      exact h.iff

/-! ## Folding -/

namespace Expr

theorem callees_eq_nil_of_not_hasEffect {e : Expr} (h : e.hasEffect = false) : e.callees = [] := by
  have hlist : ∀ {es : List Expr}, (∀ e ∈ es, e.hasEffect = false → e.callees = []) →
      anyEffect es = false → es.flatMap callees = [] := by
    intro es hes
    induction es with
    | nil => exact fun _ => rfl
    | cons e es ih =>
      intro h
      rw [anyEffect, Bool.or_eq_false_iff] at h
      obtain ⟨he, hes⟩ := List.forall_mem_cons.1 hes
      rw [List.flatMap_cons, he h.1, ih hes h.2]
      rfl
  induction e using inductionOn with
  | int | float | str | var => rfl
  | binary op a b iha ihb =>
    rw [hasEffect, Bool.or_eq_false_iff] at h
    rw [callees_binary, iha h.1, ihb h.2]
    rfl
  | cast t a iha => exact iha (by rwa [hasEffect] at h)
  | load v is ih =>
    rw [callees_load]
    exact hlist ih (by rwa [hasEffect] at h)
  | call t f as _ =>
    rw [hasEffect] at h
    exact nomatch h

theorem written_eq_nil_of_not_hasEffect {e : Expr} (h : e.hasEffect = false) : e.written = [] := by
  rw [List.eq_nil_iff_forall_not_mem]
  intro f hf
  rw [mem_written_iff, callees_eq_nil_of_not_hasEffect h] at hf
  exact absurd hf List.not_mem_nil

section

variable {op : Operator} {a b e : Expr}

theorem Identity.written (h : Identity op a b e) : e.written = (binary op a b).written := by
  have hint : ∀ n : Word, (int n).written = [] := fun n => rfl
  cases h with
  | zero_add | add_zero | sub_zero | one_mul | mul_one | floorDiv_one =>
    simp [Expr.written, Operator.chooses]
  | zero_mul heff | mul_zero heff =>
    simp [Expr.written, Operator.chooses, written_eq_nil_of_not_hasEffect heff]

theorem Folded.written (h : Folded op a b e) : e.written = (binary op a b).written := by
  cases h with
  | node => rfl
  | literal ha hb _ => simp [ha, hb, Expr.written]
  | identity _ _ h => exact h.written

theorem Folded.asides_subset (h : Folded op a b e) : e.asides ⊆ (binary op a b).asides := by
  cases h with
  | node => exact List.Subset.refl _
  | literal => exact List.nil_subset _
  | identity _ _ h =>
    rw [Expr.asides]
    rcases h.mem with rfl | rfl | rfl
    · exact List.subset_append_of_subset_right _ (List.subset_append_left _ _)
    · exact List.subset_append_of_subset_right _ (List.subset_append_right _ _)
    · exact List.nil_subset _

end

/-- **Folding keeps the calls**, in the same order and as often as they are written. -/
theorem written_fold (e : Expr) : e.fold.written = e.written := by
  have hlist : ∀ {es : List Expr}, (∀ e ∈ es, e.fold.written = e.written) →
      (es.map fold).flatMap written = es.flatMap written := by
    intro es hes
    rw [List.flatMap_map, List.flatMap_def, List.flatMap_def]
    exact congrArg List.flatten (List.map_congr_left hes)
  induction e using inductionOn with
  | int | float | str | var => rfl
  | binary op a b iha ihb =>
    rw [fold_binary, (folded_foldOperation op a.fold b.fold).written, written, written, iha, ihb]
  | cast t a iha => exact iha
  | load v is ih => rw [fold_load, written_load, written_load, hlist ih]
  | call t f as ih => rw [fold_call, written_call, written_call, hlist ih]

theorem asides_fold_subset (e : Expr) : e.fold.asides ⊆ e.asides := by
  have hlist : ∀ {es : List Expr}, (∀ e ∈ es, e.fold.asides ⊆ e.asides) →
      (es.map fold).flatMap asides ⊆ es.flatMap asides := by
    intro es hes s hs
    rw [List.flatMap_map] at hs
    obtain ⟨e, he, hs⟩ := List.mem_flatMap.1 hs
    exact List.mem_flatMap_of_mem he (hes e he hs)
  induction e using inductionOn with
  | int | float | str | var => exact List.Subset.refl _
  | binary op a b iha ihb =>
    refine List.Subset.trans (folded_foldOperation op a.fold b.fold).asides_subset ?_
    rw [asides, asides]
    exact List.append_subset.2 ⟨List.subset_append_left _ _, List.append_subset.2
      ⟨List.subset_append_of_subset_right _ (List.subset_append_of_subset_left _ iha),
        List.subset_append_of_subset_right _ (List.subset_append_of_subset_right _ ihb)⟩⟩
  | cast t a iha => exact iha
  | load v is ih =>
    rw [fold_load, asides_load, asides_load]
    exact hlist ih
  | call t f as ih =>
    rw [fold_call, asides_call, asides_call]
    exact hlist ih

end Expr

/-! ## The calls in the text -/

/-- A function that is only called: nothing else that is written looks like a call of it. -/
structure OnlyCalled (f : String) (asides callees : List String) : Prop where
  asides : ∀ s ∈ asides, C.calls f s = 0
  callees : ∀ g ∈ callees, g = f ∨ C.calls f (g ++ "(") = 0

theorem OnlyCalled.mono {f : String} {as as' cs cs' : List String} (h : OnlyCalled f as cs)
    (has : as' ⊆ as) (hcs : cs' ⊆ cs) : OnlyCalled f as' cs' :=
  ⟨fun s hs => h.asides s (has hs), fun g hg => h.callees g (hcs hg)⟩

/-- No type is spelled with a call of the function. -/
structure Target.CallFree (target : Target) (f : String) : Prop where
  index : C.calls f target.indexType = 0
  float16 : C.calls f target.float16Type = 0

/-- No built-in target spells a type with a call. -/
theorem Target.callFree_builtin {target : Target} (h : target ∈ builtin) (f : String) :
    target.CallFree f := by
  have hopen : ∀ t ∈ builtin, '(' ∉ t.indexType.toList ∧ '(' ∉ t.float16Type.toList := by decide
  obtain ⟨hindex, hfloat⟩ := hopen target h
  exact ⟨C.callsFrom_of_not_mem hindex, C.callsFrom_of_not_mem hfloat⟩

theorem Target.CallFree.spell {target : Target} {f : String} (h : target.CallFree f)
    (t : ElemType) : C.calls f (target.spell t) = 0 := by
  cases t with
  | float16 => exact h.float16
  | _ => exact C.callsFrom_of_not_mem (by rw [Target.spell]; decide)

section

variable {f : String} (hf : C.IsName f.toList)

include hf

theorem C.calls_callee (g s : String) :
    C.calls f (g ++ "(" ++ s) = C.calls f (g ++ "(") + C.calls f s := by
  have hopen : "(".toList = ['('] := rfl
  simp only [C.calls, String.toList_append, List.append_assoc, hopen]
  exact C.callsFrom_callee hf

theorem C.calls_choice {sign : String} (hsign : '(' ∉ sign.toList) (l r : String) :
    C.calls f (C.choice sign l r) = 2 * (C.calls f l + C.calls f r) := by
  simp only [C.choice, C.calls, String.toList_append, List.append_assoc]
  simp (disch := first | decide | assumption) only [C.callsFrom_joins hf,
    C.callsFrom_of_holdsNoCall hf, C.callsFrom_joins_nil hf, C.callsFrom_of_not_mem]
  omega

theorem C.calls_commas (ts : List String) :
    C.calls f (Expr.commas ts) = (ts.map (C.calls f)).sum := by
  induction ts with
  | nil => rfl
  | cons t ts ih =>
    cases ts with
    | nil => simp [Expr.commas]
    | cons u us =>
      rw [Expr.commas, String.intercalate_cons_cons, ← Expr.commas, List.map_cons, List.sum_cons,
        ← ih]
      simp only [C.calls, String.toList_append, List.append_assoc]
      exact C.callsFrom_joins hf (by decide)

/-- A name with indices. -/
theorem C.calls_brackets {s : String} (hs : '(' ∉ s.toList) (ts : List String) :
    C.calls f (s ++ Expr.brackets ts) = (ts.map (C.calls f)).sum := by
  have hall : ∀ ts, ∀ {w} {xs : List Char}, '(' ∉ xs →
      C.callsFrom f.toList w (xs ++ (Expr.brackets ts).toList) = (ts.map (C.calls f)).sum := by
    intro ts
    induction ts with
    | nil =>
      intro w xs hxs
      simp [Expr.brackets, C.callsFrom_of_not_mem hxs]
    | cons t ts ih =>
      intro w xs hxs
      have hcons : (Expr.brackets (t :: ts)).toList =
          '[' :: (t.toList ++ ']' :: (Expr.brackets ts).toList) := by
        simp [Expr.brackets]
      rw [hcons, C.callsFrom_append hf (by decide) (by decide),
        C.callsFrom_append hf (by decide) (by decide), C.callsFrom_of_not_mem hxs, Nat.zero_add,
        List.map_cons, List.sum_cons, C.calls]
      exact congrArg _ (ih List.not_mem_nil)
  rw [C.calls, String.toList_append]
  exact hall ts hs

theorem Operator.calls_textC (op : Operator) (l r : String) :
    C.calls f (op.textC l r) = (op.asides.map (C.calls f)).sum +
      if op.chooses then 2 * (C.calls f l + C.calls f r) else C.calls f l + C.calls f r := by
  have hroutine : ∀ h : C.Routine, C.calls f (h.name ++ "(" ++ l ++ ", " ++ r ++ ")") =
      C.calls f (h.name ++ "(") + (C.calls f l + C.calls f r) := by
    intro h
    have hassoc : h.name ++ "(" ++ l ++ ", " ++ r ++ ")" =
        h.name ++ "(" ++ (l ++ ", " ++ r ++ ")") := by
      simp only [String.append_assoc]
    rw [hassoc, C.calls_callee hf]
    simp only [C.calls, String.toList_append, List.append_assoc]
    simp (disch := decide) only [C.callsFrom_joins hf, C.callsFrom_joins_nil hf]
  have hsign : ∀ s : String, '(' ∉ s.toList →
      C.calls f ("(" ++ l ++ " " ++ s ++ " " ++ r ++ ")") = C.calls f l + C.calls f r := by
    intro s hs
    simp only [C.calls, String.toList_append, List.append_assoc]
    simp (disch := first | decide | assumption) only [C.callsFrom_joins hf,
      C.callsFrom_of_holdsNoCall hf, C.callsFrom_joins_nil hf, C.callsFrom_of_not_mem, Nat.zero_add]
  cases op with
  | min | max => 
    rw [Operator.textC, C.calls_choice hf (by decide)]
    simp [Operator.asides, Operator.chooses, C.Routine.ofOperator?]
  | floorDiv | floorMod =>
    simp [Operator.textC, Operator.asides, Operator.chooses, C.Routine.ofOperator?, hroutine]
  | _ =>
    simp only [Operator.textC, C.Routine.ofOperator?]
    exact (hsign _ (by decide)).trans
      (by simp [Operator.asides, Operator.chooses, C.Routine.ofOperator?])

namespace Expr

variable {target : Target} (ht : target.CallFree f) {names : Var → String}
  (hnames : ∀ v, '(' ∉ (names v).toList)

include ht hnames

omit hf ht hnames in
/-- What holds of expressions holds of a list of them. -/
theorem calls_textsC_of {es : List Expr} (hes : ∀ e ∈ es, OnlyCalled f e.asides e.callees →
    C.calls f (e.textC target names) = e.written.count f)
    (hall : OnlyCalled f (es.flatMap asides) (es.flatMap callees)) :
    ((textsC target names es).map (C.calls f)).sum = (es.flatMap written).count f := by
  induction es with
  | nil => rfl
  | cons e es ih =>
    obtain ⟨he, hes⟩ := List.forall_mem_cons.1 hes
    simp only [List.flatMap_cons] at hall ⊢
    rw [textsC, List.map_cons, List.sum_cons, List.count_append,
      he (hall.mono (List.subset_append_left _ _) (List.subset_append_left _ _)),
      ih hes (hall.mono (List.subset_append_right _ _) (List.subset_append_right _ _))]

/-- **The calls in the text of an expression.** -/
theorem calls_textC {e : Expr} (he : OnlyCalled f e.asides e.callees) :
    C.calls f (e.textC target names) = e.written.count f := by
  induction e using inductionOn with
  | int n => exact C.callsFrom_of_not_mem n.open_not_mem_text
  | float x => exact C.callsFrom_of_not_mem x.open_not_mem_textC
  | str s => exact he.asides _ (List.mem_singleton_self _)
  | var v => exact C.callsFrom_of_not_mem (hnames v)
  | binary op a b iha ihb =>
    rw [asides, callees_binary] at he
    have hop : (op.asides.map (C.calls f)).sum = 0 := by
      rw [List.sum_eq_zero_iff_forall_eq_nat, List.forall_mem_map]
      exact fun s hs => he.asides s (List.mem_append_left _ hs)
    have ha := iha (he.mono
      (List.subset_append_of_subset_right _ (List.subset_append_left _ _))
      (List.subset_append_left _ _))
    have hb := ihb (he.mono
      (List.subset_append_of_subset_right _ (List.subset_append_right _ _))
      (List.subset_append_right _ _))
    rw [textC, op.calls_textC hf, hop, ha, hb, Nat.zero_add, written]
    split
    · simp only [List.count_append, Nat.two_mul]
    · rw [List.count_append]
  | cast t a iha =>
    rw [textC, written, ← iha he]
    simp only [C.calls, String.toList_append, List.append_assoc]
    simp (disch := decide) only [C.callsFrom_joins hf, C.callsFrom_of_holdsNoCall hf,
      C.callsFrom_joins_nil hf]
    rw [← C.calls, ht.spell t, Nat.zero_add]
  | load v is ih =>
    rw [asides_load, callees_load] at he
    rw [textC, written_load, C.calls_brackets hf (hnames v), calls_textsC_of ih he]
  | call t g as ih =>
    rw [asides_call, callees_call] at he
    have hassoc : (call t g as).textC target names =
        g ++ "(" ++ (commas (textsC target names as) ++ ")") := by
      rw [textC, String.append_assoc]
    have hargs : C.calls f (commas (textsC target names as) ++ ")") =
        (as.flatMap written).count f := by
      have hall := he.mono (List.Subset.refl _) (List.subset_cons_self _ _)
      rw [C.calls, String.toList_append, C.callsFrom_joins_nil hf (by decide), ← C.calls,
        C.calls_commas hf, calls_textsC_of ih hall]
    rw [hassoc, C.calls_callee hf, hargs, written_call, List.count_cons, Nat.add_comm]
    congr 1
    have hself : C.calls f (f ++ "(") = 1 := by
      rw [C.calls, String.toList_append]
      exact (C.callsFrom_name hf hf).trans (if_pos rfl)
    rcases he.callees g List.mem_cons_self with rfl | hg
    · rw [hself, if_pos BEq.rfl]
    · have hne : ¬(g == f) = true := by
        rintro h
        rw [eq_of_beq h, hself] at hg
        exact absurd hg (by decide)
      rw [hg, if_neg hne]

/-- The calls in the texts of expressions. -/
theorem calls_textsC {es : List Expr}
    (hall : OnlyCalled f (es.flatMap asides) (es.flatMap callees)) :
    ((textsC target names es).map (C.calls f)).sum = (es.flatMap written).count f :=
  calls_textsC_of (fun _ _ he => calls_textC hf ht hnames he) hall

end Expr
end

end LoopNest
