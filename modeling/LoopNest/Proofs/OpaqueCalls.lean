import LoopNest.Proofs.Acceptance
import LoopNest.Proofs.PrintedBlocks
import LoopNest.Proofs.WrittenCalls

/-!
# Opaque calls in emitted blocks

The statements of a block hold each of its calls. Where a text is used twice, they hold it more than
once: the operands of `min` and `max`, and the first value of a loop, which stands in its bound as
well. The bound is compared before every round, so a call in it is made again and again.

* `C.Loop.condition`, `Target.conditions`: what loops test before every round;
* `Block.callees`, `Block.written`, `Block.tested`: the calls of a block, those of its statements
  and those of its conditions;
* `Block.repeated`: the calls in the places that are used twice or tested;
* `Carried`: what rows of C have from the rows that they come from;
* **`C.Row.calls_lines`**: the calls in the lines of a row;
* **`calls_emit`**: all calls in the statements of a block, and which of them are repeated.
-/

namespace LoopNest

open C

/-! ## Rows of C -/

/-- What a loop tests before every round. -/
def C.Loop.condition (target : Target) (names : Var → String) (l : Loop) : String :=
  names l.var ++ " " ++ l.comparison ++ " " ++ l.bound.textC target names

theorem C.Loop.header_eq (target : Target) (names : Var → String) (l : Loop) :
    l.header target names =
      "for (" ++ target.indexType ++ " " ++ names l.var ++ " = " ++ l.first.textC target names ++
        "; " ++ l.condition target names ++ "; " ++ l.advance (names l.var) ++ ") \x7b" := by
  unfold header condition
  simp only [String.append_assoc]

namespace C.Row

/-- The expressions of a row. -/
def exprs : C.Row → List Expr
  | loop head => [head.first, head.bound]
  | array _ shape _ => shape
  | consts bs => bs.map Binding.value
  | eval e => [e]
  | assign _ is e => is ++ [e]
  | close => []

/-- The free text in the comment on a row. -/
def remarks : C.Row → List String
  | loop head => [head.tag]
  | array _ _ storage => [storage]
  | consts _ | eval _ | assign _ _ _ | close => []

/-- The conditions of a row. -/
def conditions (target : Target) (names : Var → String) : C.Row → List String
  | loop head => [head.condition target names]
  | array _ _ _ | consts _ | eval _ | assign _ _ _ | close => []

/-- The functions called in the conditions of a row. -/
def tested : C.Row → List String
  | loop head => head.bound.written
  | array _ _ _ | consts _ | eval _ | assign _ _ _ | close => []

/-- What the text of a row holds besides its calls. -/
def asides (row : C.Row) : List String := row.remarks ++ row.exprs.flatMap Expr.asides

/-- The functions that a row calls. -/
def callees (row : C.Row) : List String := row.exprs.flatMap Expr.callees

/-- The functions that the text of a row calls. -/
def written (row : C.Row) : List String := row.exprs.flatMap Expr.written

end C.Row

section

variable {f : String} (hf : IsName f.toList)

include hf

/-! ## Calls in lines -/

/-- The calls in a line, and in its comment. -/
theorem C.Line.calls_text (width : Nat) (l : Line) :
    calls f (l.text width) = calls f l.code + (l.note.toList.map (calls f)).sum := by
  have hblanks : ∀ n, holdsNoCall false (List.replicate n ' ') = true := by
    intro n
    induction n with
    | zero => rfl
    | succ n ih => exact ih
  obtain ⟨depth, code, note⟩ := l
  cases note with
  | none =>
    simp only [text, calls, String.toList_append, String.toList_ofList, List.append_assoc]
    rw [callsFrom_of_holdsNoCall hf (hblanks _)]
    simp (disch := decide) [callsFrom_joins_nil hf]
  | some note =>
    simp only [text, calls, String.toList_append, String.toList_ofList, List.append_assoc]
    have hend : '(' ∉ "\n".toList := by decide
    rw [callsFrom_of_holdsNoCall hf (hblanks _), callsFrom_joins hf (by decide),
      callsFrom_joins hf (by decide), callsFrom_of_not_mem hend]
    simp [calls]

/-- A line ends whatever name runs up to its end. -/
theorem C.Line.calls_render_cons (width : Nat) (l : Line) (ls : List Line) :
    calls f (render width (l :: ls)) = calls f (l.text width) + calls f (render width ls) := by
  have htext : ∃ s : String, l.text width = s ++ "\n" := ⟨_, rfl⟩
  obtain ⟨s, hs⟩ := htext
  have hcons : render width (l :: ls) = l.text width ++ render width ls := by
    rw [render, List.map_cons, String.join_cons, render]
  rw [hcons, hs]
  simp only [calls, String.toList_append, List.append_assoc]
  rw [callsFrom_joins hf (by decide), callsFrom_joins_nil hf (by decide)]

theorem C.Line.calls_render_append (width : Nat) (ls ms : List Line) :
    calls f (render width (ls ++ ms)) = calls f (render width ls) + calls f (render width ms) := by
  induction ls with
  | nil => exact (Nat.zero_add _).symm
  | cons l ls ih =>
    rw [List.cons_append, calls_render_cons hf, calls_render_cons hf, ih, Nat.add_assoc]

/-! ## Calls in rows -/

/-- The calls in a comment on a loop. -/
theorem C.Loop.calls_note {l : Loop} (hl : calls f l.tag = 0) : calls f l.note = 0 := by
  have hkind : '(' ∉ l.kind.text.toList := by cases l.kind <;> decide
  unfold note
  split
  · exact callsFrom_of_not_mem hkind
  · simp only [calls, String.toList_append, List.append_assoc] at hl ⊢
    rw [callsFrom_joins hf (by decide), callsFrom_of_not_mem hkind, hl]

section

variable {target : Target} (ht : target.CallFree f) {names : Var → String}
  (hnames : ∀ v, '(' ∉ (names v).toList)

include ht hnames

/-- The calls in the condition of a loop. -/
theorem C.Loop.calls_condition {l : Loop} (hl : OnlyCalled f l.bound.asides l.bound.callees) :
    calls f (l.condition target names) = l.bound.written.count f := by
  have hsign : '(' ∉ l.comparison.toList := by
    rw [comparison]
    split <;> decide
  rw [← Expr.calls_textC hf ht hnames hl, condition]
  simp only [calls, String.toList_append, List.append_assoc]
  rw [callsFrom_joins hf (by decide), callsFrom_joins hf (by decide),
    callsFrom_of_not_mem (hnames l.var), callsFrom_of_not_mem hsign, Nat.zero_add, Nat.zero_add]

omit hf ht in
theorem C.Loop.calls_advance (l : Loop) : calls f (l.advance (names l.var)) = 0 := by
  have hnat : ∀ n : Nat, '(' ∉ (toString n).toList := by
    intro n hn
    rw [toList_number] at hn
    exact absurd (Nat.isDigit_of_mem_toDigits (by omega) (by omega) hn) (by decide)
  have hmem : '(' ∉ (l.advance (names l.var)).toList := by
    unfold advance
    split_ifs
    · rw [String.toList_append, List.mem_append]
      exact fun h => h.elim (by decide) (hnames l.var)
    · rw [String.toList_append, List.mem_append]
      exact fun h => h.elim (by decide) (hnames l.var)
    · rw [String.toList_append, String.toList_append, List.mem_append, List.mem_append]
      exact fun h => h.elim (fun h => h.elim (hnames l.var) (by decide)) l.step.open_not_mem_text
    · rw [String.toList_append, String.toList_append, List.mem_append, List.mem_append]
      exact fun h => h.elim (fun h => h.elim (hnames l.var) (by decide)) (hnat _)
  exact callsFrom_of_not_mem hmem

/-- The calls in the header of a loop: the bound is in its condition. -/
theorem C.Loop.calls_header {l : Loop} (hl : OnlyCalled f (l.first.asides ++ l.bound.asides)
    (l.first.callees ++ l.bound.callees)) : calls f (l.header target names) =
      l.first.written.count f + l.bound.written.count f := by
  have hfirst := Expr.calls_textC hf ht hnames
    (hl.mono (List.subset_append_left _ _) (List.subset_append_left _ _))
  have hbound := calls_condition hf ht hnames
    (hl.mono (List.subset_append_right _ _) (List.subset_append_right _ _))
  have hadvance := calls_advance (f := f) hnames l
  rw [header_eq, ← hfirst, ← hbound]
  simp only [calls, String.toList_append, List.append_assoc] at hadvance ⊢
  rw [callsFrom_of_holdsNoCall hf (by decide), callsFrom_joins hf (by decide),
    callsFrom_joins hf (by decide), callsFrom_joins hf (by decide), callsFrom_joins hf (by decide),
    callsFrom_joins_nil hf (by decide), hadvance, callsFrom_of_not_mem (hnames l.var), ← calls,
    ht.index, Nat.zero_add, Nat.zero_add, Nat.add_zero]

/-- The calls in a declaration of a local array. -/
theorem C.calls_declaration (v : Var) {shape : List Expr}
    (h : OnlyCalled f (shape.flatMap Expr.asides) (shape.flatMap Expr.callees)) :
    calls f (declaration target names v shape) = (shape.flatMap Expr.written).count f := by
  have hassoc : declaration target names v shape = target.spell v.type ++ " " ++
      (names v ++ Expr.brackets (Expr.textsC target names shape)) ++ ";" := by
    unfold declaration
    simp only [String.append_assoc]
  rw [hassoc, ← Expr.calls_textsC hf ht hnames h, ← calls_brackets hf (hnames v)]
  simp only [calls, String.toList_append, List.append_assoc]
  rw [callsFrom_joins hf (by decide), ← calls, ht.spell, Nat.zero_add, ← List.append_assoc,
    callsFrom_joins_nil hf (by decide)]

/-- The calls in a declaration of a named value. -/
theorem C.calls_constant {b : Binding} (h : OnlyCalled f b.value.asides b.value.callees) :
    calls f (constant target names b) = b.value.written.count f := by
  rw [← Expr.calls_textC hf ht hnames h, constant]
  simp only [calls, String.toList_append, List.append_assoc]
  rw [callsFrom_of_holdsNoCall hf (by decide), callsFrom_joins hf (by decide),
    callsFrom_joins hf (by decide), callsFrom_joins_nil hf (by decide), ← calls, ht.spell,
    callsFrom_of_not_mem (hnames b.var), Nat.zero_add, Nat.zero_add]

/-- The calls in an assignment. -/
theorem C.calls_assign (v : Var) {is : List Expr} {e : Expr}
    (h : OnlyCalled f (is.flatMap Expr.asides ++ e.asides) (is.flatMap Expr.callees ++ e.callees)) :
    calls f (names v ++ Expr.brackets (Expr.textsC target names is) ++ " = " ++
      e.textC target names ++ ";") = (is.flatMap Expr.written).count f + e.written.count f := by
  rw [← Expr.calls_textsC hf ht hnames
      (h.mono (List.subset_append_left _ _) (List.subset_append_left _ _)),
    ← Expr.calls_textC hf ht hnames
      (h.mono (List.subset_append_right _ _) (List.subset_append_right _ _)),
    ← calls_brackets hf (hnames v)]
  generalize names v ++ Expr.brackets (Expr.textsC target names is) = s
  simp only [calls, String.toList_append, List.append_assoc]
  rw [callsFrom_joins hf (by decide), callsFrom_joins_nil hf (by decide)]

/-- **The calls in the lines of a row.** -/
theorem C.Row.calls_lines {row : C.Row} (h : OnlyCalled f row.asides row.callees)
    (width depth : Nat) : calls f (Line.render width (row.lines target names depth)) =
      row.written.count f := by
  have hline : ∀ d code note, calls f (Line.render width [⟨d, code, note⟩]) =
      calls f code + (note.toList.map (calls f)).sum := fun d code note => by
    rw [Line.calls_render_cons hf, Line.calls_text hf]
    rfl
  have hplain : ∀ d code ls, calls f (Line.render width (plain d code :: ls)) =
      calls f code + calls f (Line.render width ls) := fun d code ls => by
    rw [Line.calls_render_cons hf, Line.calls_text hf]
    rfl
  have hbrace : calls f "\x7b" = 0 := callsFrom_of_not_mem (by decide)
  have hremarks : ∀ s ∈ row.remarks, calls f s = 0 := fun s hs =>
    h.asides s (List.mem_append_left _ hs)
  have hexprs : OnlyCalled f (row.exprs.flatMap Expr.asides) (row.exprs.flatMap Expr.callees) :=
    h.mono (List.subset_append_right _ _) (List.Subset.refl _)
  cases row with
  | loop l =>
    have hpragma : calls f (Line.render width
        (if l.kind = .unroll then [plain depth "#pragma unroll"] else [])) = 0 := by
      split
      · rw [hplain, calls, callsFrom_of_not_mem (by decide)]
        rfl
      · rfl
    have hl : OnlyCalled f (l.first.asides ++ l.bound.asides)
        (l.first.callees ++ l.bound.callees) := by simpa [exprs] using hexprs
    have hnote := l.calls_note hf (hremarks l.tag (List.mem_singleton_self _))
    rw [lines, Line.calls_render_append hf, hpragma, hline, Loop.calls_header hf ht hnames hl,
      Option.toList_some, List.map_cons, List.sum_cons, hnote]
    simp [written, exprs]
  | array v shape storage =>
    have hnote : ((storageNote storage).toList.map (calls f)).sum = 0 := by
      unfold storageNote
      split
      · rfl
      · simpa using hremarks storage (List.mem_singleton_self _)
    have hshape := calls_declaration hf ht hnames v hexprs
    rw [exprs] at hshape
    rw [lines, hplain, hbrace, hline, hnote, hshape]
    exact Nat.zero_add _
  | consts bs =>
    rw [lines, hplain, hbrace, Nat.zero_add, written, exprs]
    rw [exprs] at hexprs
    -- The induction is on the constants, so what is known of the whole row must not go with it.
    clear h hremarks
    induction bs with
    | nil => rfl
    | cons b bs ih =>
      simp only [List.map_cons, List.flatMap_cons] at hexprs ⊢
      rw [hplain, List.count_append, ih (hexprs.mono (List.subset_append_right _ _)
          (List.subset_append_right _ _)), calls_constant hf ht hnames
        (hexprs.mono (List.subset_append_left _ _) (List.subset_append_left _ _))]
  | eval e =>
    have he : OnlyCalled f e.asides e.callees := by simpa [exprs] using hexprs
    have htext : calls f (e.textC target names ++ ";") = e.written.count f := by
      rw [← Expr.calls_textC hf ht hnames he, calls, String.toList_append,
        callsFrom_joins_nil hf (by decide)]
      rfl
    rw [lines, hplain, htext, written, exprs, List.flatMap_singleton]
    rfl
  | assign v is e =>
    have hassign : OnlyCalled f (is.flatMap Expr.asides ++ e.asides)
        (is.flatMap Expr.callees ++ e.callees) := by simpa [exprs] using hexprs
    rw [lines, hplain, calls_assign hf ht hnames v hassign, written, exprs, List.flatMap_append,
      List.count_append, List.flatMap_singleton]
    rfl
  | close =>
    rw [lines, hplain, calls, callsFrom_of_not_mem (by decide)]
    rfl

/-- The calls in the lines of rows. -/
theorem C.Row.calls_render {ps : List (Nat × C.Row)}
    (h : OnlyCalled f (ps.flatMap fun p => p.2.asides) (ps.flatMap fun p => p.2.callees))
    (width : Nat) : calls f (Line.render width (ps.flatMap fun p => p.2.lines target names p.1)) =
      (ps.flatMap fun p => p.2.written).count f := by
  induction ps with
  | nil => rfl
  | cons p ps ih =>
    simp only [List.flatMap_cons] at h ⊢
    rw [Line.calls_render_append hf, List.count_append,
      calls_lines hf ht hnames
        (h.mono (List.subset_append_left _ _) (List.subset_append_left _ _)),
      ih (h.mono (List.subset_append_right _ _) (List.subset_append_right _ _))]

/-- The calls in the conditions of rows. -/
theorem C.Row.calls_conditions {ps : List (Nat × C.Row)}
    (h : OnlyCalled f (ps.flatMap fun p => p.2.asides) (ps.flatMap fun p => p.2.callees)) :
    ((ps.flatMap fun p => p.2.conditions target names).map (calls f)).sum =
      (ps.flatMap fun p => p.2.tested).count f := by
  induction ps with
  | nil => rfl
  | cons p ps ih =>
    simp only [List.flatMap_cons] at h ⊢
    rw [List.map_append, List.sum_append, List.count_append,
      ih (h.mono (List.subset_append_right _ _) (List.subset_append_right _ _)),
      Nat.add_right_cancel_iff]
    cases hp : p.2 with
    | loop l =>
      have hl : OnlyCalled f l.bound.asides l.bound.callees := by
        rw [hp] at h
        refine h.mono (fun s hs => ?_) fun g hg => ?_
        · simp [asides, exprs, hs]
        · simp [callees, exprs, hg]
      exact (Nat.add_zero _).trans (Loop.calls_condition hf ht hnames hl)
    | _ => rfl

end

end

/-! ## Rows of a block -/

namespace Row

/-- The expressions of a row. -/
def exprs : Row → List Expr
  | loop _ i => i.range.parts
  | alloc _ shape _ => shape
  | bind bs => bs.map Binding.value
  | eval e => [e]
  | store _ is e => is ++ [e]
  | close => []

/-- The free text of a row. -/
def remarks : Row → List String
  | loop _ i => [i.tag]
  | alloc _ _ storage => [storage]
  | bind _ | eval _ | store _ _ _ | close => []

/-- What a row holds besides its calls. -/
def asides (row : Row) : List String := row.remarks ++ row.exprs.flatMap Expr.asides

/-- The functions that a row calls. -/
def callees (row : Row) : List String := row.calls.map Prod.fst

/-- The functions that the statement of a row calls. The first value of a loop stands in its bound
as well. -/
def written : Row → List String
  | loop _ i => i.range.first.written ++ (i.range.first.written ++ i.range.extent.written)
  | row => row.exprs.flatMap Expr.written

/-- The functions called before every round of a loop. -/
def tested : Row → List String
  | loop _ i => i.range.first.written ++ i.range.extent.written
  | _ => []

/-- The functions called in places that are used twice or tested before every round. -/
def repeated : Row → List String
  | loop _ i => i.range.first.callees ++ i.range.extent.callees
  | row => row.exprs.flatMap Expr.doubled

theorem callees_eq (row : Row) : row.callees = row.exprs.flatMap Expr.callees := by
  cases row with
  | loop k i => exact Expr.map_fst_callsAll _
  | alloc v shape storage => exact Expr.map_fst_callsAll _
  | bind bs => rw [callees, calls, List.map_flatMap, exprs, List.flatMap_map]; rfl
  | eval e => rw [exprs, List.flatMap_singleton]; rfl
  | store v is e =>
    rw [callees, calls, List.map_append, Expr.map_fst_callsAll, exprs, List.flatMap_append,
      List.flatMap_singleton]
    rfl
  | close => rfl

end Row

/-! ## From rows to rows of C -/

namespace Range

variable (r : Range) (s : Word)

/-- The bound is written with the calls of the first value and of the extent. -/
theorem written_bound : (r.bound s).written = r.first.written ++ r.extent.written := by
  rw [bound, Expr.written_fold]
  exact congrArg (r.first.written ++ ·) (List.append_nil _)

theorem callees_bound_subset : (r.bound s).callees ⊆ r.first.callees ++ r.extent.callees := by
  intro g hg
  rw [← Expr.mem_written_iff, written_bound, List.mem_append, Expr.mem_written_iff,
    Expr.mem_written_iff] at hg
  exact List.mem_append.2 hg

theorem asides_bound_subset : (r.bound s).asides ⊆ r.first.asides ++ r.extent.asides := by
  refine List.Subset.trans (Expr.asides_fold_subset _) ?_
  have hasides : (r.first + r.extent * .int s).asides = r.first.asides ++ (r.extent.asides ++ []) :=
    rfl
  rw [hasides, List.append_nil]
  exact List.Subset.refl _

end Range

/-- Rows of C that come from rows of a block have the calls that are written and tested, and nothing
else that looks like a call. -/
structure Carried (ps : List (Nat × Row)) (cs : List (Nat × C.Row)) : Prop where
  written : (cs.flatMap fun c => c.2.written) = ps.flatMap fun p => p.2.written
  tested : (cs.flatMap fun c => c.2.tested) = ps.flatMap fun p => p.2.tested
  asides : (cs.flatMap fun c => c.2.asides) ⊆ ps.flatMap fun p => p.2.asides
  callees : (cs.flatMap fun c => c.2.callees) ⊆ ps.flatMap fun p => p.2.callees
  repeats : ∀ f, Repeats f (ps.flatMap fun p => p.2.callees) (ps.flatMap fun p => p.2.written)
    (ps.flatMap fun p => p.2.tested) (ps.flatMap fun p => p.2.repeated)

namespace Carried

theorem nil : Carried [] [] :=
  ⟨rfl, rfl, List.Subset.refl _, List.Subset.refl _, fun _ => .nil⟩

theorem append {ps ps' : List (Nat × Row)} {cs cs' : List (Nat × C.Row)} (h : Carried ps cs)
    (h' : Carried ps' cs') : Carried (ps ++ ps') (cs ++ cs') where
  written := by simp only [List.flatMap_append, h.written, h'.written]
  tested := by simp only [List.flatMap_append, h.tested, h'.tested]
  asides := by
    simp only [List.flatMap_append]
    exact List.append_subset.2 ⟨List.subset_append_of_subset_left _ h.asides,
      List.subset_append_of_subset_right _ h'.asides⟩
  callees := by
    simp only [List.flatMap_append]
    exact List.append_subset.2 ⟨List.subset_append_of_subset_left _ h.callees,
      List.subset_append_of_subset_right _ h'.callees⟩
  repeats f := by
    simp only [List.flatMap_append]
    exact (h.repeats f).append (h'.repeats f)

/-- A row that is no loop keeps its expressions and its free text. -/
theorem same (depth : Nat) {row : Row} {c : C.Row} (hexprs : c.exprs = row.exprs)
    (hremarks : c.remarks = row.remarks) (htested : c.tested = []) (hnone : row.tested = [])
    (hwritten : row.written = row.exprs.flatMap Expr.written)
    (hrepeated : row.repeated = row.exprs.flatMap Expr.doubled) :
    Carried [(depth, row)] [(depth, c)] where
  written := by simp only [List.flatMap_singleton, hwritten, C.Row.written, hexprs]
  tested := by simp only [List.flatMap_singleton, htested, hnone]
  asides := by
    simp only [List.flatMap_singleton, C.Row.asides, Row.asides, hexprs, hremarks]
    exact List.Subset.refl _
  callees := by
    simp only [List.flatMap_singleton, C.Row.callees, Row.callees_eq, hexprs]
    exact List.Subset.refl _
  repeats f := by
    simp only [List.flatMap_singleton]
    rw [Row.callees_eq, hwritten, hnone, hrepeated]
    exact .exprs fun e _ => e.repeats f

/-- A loop whose step is a literal. -/
theorem loop (depth : Nat) {k : LoopKind} {i : LoopIndex} {s : Word}
    (hs : i.range.step = .int s) : Carried [(depth, .loop k i)]
      [(depth, .loop ⟨i.var, i.range.first, i.range.bound s, s, k, i.tag⟩)] where
  written := by simp [C.Row.written, C.Row.exprs, Row.written, Range.written_bound]
  tested := by simp [C.Row.tested, Row.tested, Range.written_bound]
  asides := by
    intro t ht
    have hbound := @Range.asides_bound_subset i.range s t
    simp only [C.Row.asides, C.Row.remarks, C.Row.exprs, Row.asides, Row.remarks, Row.exprs,
      Range.parts, List.flatMap_cons, List.mem_append] at ht hbound ⊢
    tauto
  callees := by
    intro g hg
    have hbound := @Range.callees_bound_subset i.range s g
    simp only [C.Row.callees, C.Row.exprs, Row.callees_eq, Row.exprs, Range.parts,
      List.flatMap_cons, List.mem_append] at hg hbound ⊢
    tauto
  repeats f := by
    have hfirst := (i.range.first.repeats f).le
    have hextent := (i.range.extent.repeats f).le
    have hcallees : (Row.loop k i).callees = i.range.first.callees ++ i.range.extent.callees := by
      rw [Row.callees_eq, Row.exprs, Range.parts, hs]
      simp [Expr.callees, Expr.calls]
    have hmem : f ∈ i.range.first.written ++ i.range.extent.written ↔
        f ∈ i.range.first.callees ++ i.range.extent.callees := by
      simp only [List.mem_append, Expr.mem_written_iff]
    simp only [List.flatMap_singleton]
    rw [hcallees, Row.written, Row.tested, Row.repeated]
    refine ⟨?_, ?_, ?_⟩
    · simp only [List.count_append]
      omega
    · exact fun h => hmem.not.1 h.2
    · intro h
      have hwritten := List.count_eq_zero.2 (hmem.not.2 h)
      have hcalled := List.count_eq_zero.2 h
      refine ⟨?_, hmem.not.2 h⟩
      simp only [List.count_append] at hwritten hcalled ⊢
      omega

end Carried

/-- **A row is carried over.** -/
theorem Row.carried (depth : Nat) {zigzag : Bool} {known : C.Ranks} {row : Row} {cs : List C.Row}
    (h : row.toC zigzag known = .ok cs) :
    Carried [(depth, row)] (cs.map fun c => (depth, c)) := by
  cases row with
  | loop k i =>
    obtain ⟨l, hl, h⟩ := bind_eq_ok_iff.1 h
    obtain ⟨-, -, h⟩ := bind_eq_ok_iff.1 h
    obtain ⟨-, -, h⟩ := bind_eq_ok_iff.1 h
    obtain rfl := Except.ok.inj h
    obtain ⟨-, s, hs, -, rfl⟩ := LoopIndex.toC_eq_ok_iff.1 hl
    exact .loop depth hs
  | alloc | bind =>
    obtain ⟨-, -, h⟩ := bind_eq_ok_iff.1 h
    obtain rfl := Except.ok.inj h
    exact .same depth rfl rfl rfl rfl rfl rfl
  | eval e =>
    rw [toC] at h
    split at h
    · next hnop =>
      obtain rfl := eq_zero_of_isNop hnop
      obtain rfl := Except.ok.inj h
      exact ⟨rfl, rfl, List.Subset.refl _, List.Subset.refl _, fun _ => .nil⟩
    · obtain ⟨-, -, h⟩ := bind_eq_ok_iff.1 h
      obtain rfl := Except.ok.inj h
      exact .same depth rfl rfl rfl rfl rfl rfl
  | store v is e =>
    obtain ⟨-, -, h⟩ := bind_eq_ok_iff.1 h
    obtain ⟨-, -, h⟩ := bind_eq_ok_iff.1 h
    obtain ⟨-, -, h⟩ := bind_eq_ok_iff.1 h
    obtain rfl := Except.ok.inj h
    exact .same depth rfl rfl rfl rfl rfl rfl
  | close =>
    obtain rfl := Except.ok.inj h
    exact .same depth rfl rfl rfl rfl rfl rfl

/-- **Rows are carried over**, one after the other. -/
theorem Row.carried_toCAll {zigzag : Bool} {known : C.Ranks} {ps : List (Nat × Row)}
    {cs : List (Nat × C.Row)} (h : toCAll zigzag known ps = .ok cs) : Carried ps cs := by
  induction ps generalizing known cs with
  | nil =>
    obtain rfl := Except.ok.inj h
    exact .nil
  | cons p ps ih =>
    obtain ⟨row, hrow, h⟩ := bind_eq_ok_iff.1 h
    obtain ⟨rest, hrest, h⟩ := bind_eq_ok_iff.1 h
    obtain rfl := Except.ok.inj h
    exact (carried p.1 hrow).append (ih hrest)

/-! ## Blocks -/

namespace Block

/-- The functions that a block calls, once for each call. -/
def callees (b : Block) : List String := (b.rows 0).flatMap fun p => p.2.callees

/-- What a block holds besides its calls. -/
def asides (b : Block) : List String := (b.rows 0).flatMap fun p => p.2.asides

/-- The functions that the statements of a block call, once for each call in the text. -/
def written (b : Block) : List String := (b.rows 0).flatMap fun p => p.2.written

/-- The functions called before every round of a loop. -/
def tested (b : Block) : List String := (b.rows 0).flatMap fun p => p.2.tested

/-- The functions called in places that are used twice or tested before every round. -/
def repeated (b : Block) : List String := (b.rows 0).flatMap fun p => p.2.repeated

end Block

/-- The conditions of the loops in a statement. -/
def C.Stmt.conditions (target : Target) (names : Var → String) (s : Stmt) : List String :=
  (s.rows 0).flatMap fun p => p.2.conditions target names

/-- The conditions of the loops in the statements of a block. -/
def Target.conditions (target : Target) (body : Block) : Except Error (List String) := do
  let s ← target.accept body
  return s.conditions target (C.Names.empty.addAll s.vars).of

/-- The rows of what is accepted come from the rows of the block. -/
theorem Target.toCAll_of_accept {target : Target} {b : Block} {s : C.Stmt}
    (h : target.accept b = .ok s) :
    Row.toCAll target.supportsZigzag [] (b.rows 0) = .ok (s.rows 0) := by
  rw [accept] at h
  cases hb : b.toC target.supportsZigzag [] with
  | error c =>
    rw [hb] at h
    cases h
  | ok t =>
    rw [hb] at h
    obtain rfl : t = s := Except.ok.inj h
    rw [← Block.toC_rows, hb]
    rfl

theorem Target.carried_of_accept {target : Target} {b : Block} {s : C.Stmt}
    (h : target.accept b = .ok s) : Carried (b.rows 0) (s.rows 0) :=
  Row.carried_toCAll (toCAll_of_accept h)

/-- **All calls in the statements of a block.** Each call of the block is there at least once. It is
there just once, and in no condition, unless it stands in an operand of `min` or `max` or in the
first value or the extent of a loop. -/
theorem calls_emit {f : String} {target : Target} {b : Block} {text : String}
    (hf : IsName f.toList) (ht : target.CallFree f) (hb : OnlyCalled f b.asides b.callees)
    (h : target.emit b = .ok text) :
    ∃ conditions, target.conditions b = .ok conditions ∧
      calls f text = b.written.count f ∧ (conditions.map (calls f)).sum = b.tested.count f ∧
      b.callees.count f ≤ calls f text ∧
      (calls f text = b.callees.count f ∧ (∀ c ∈ conditions, calls f c = 0) ↔
        f ∉ b.repeated) := by
  obtain ⟨s, hs, htext⟩ := bind_eq_ok_iff.1 h
  obtain rfl := Except.ok.inj htext
  have hcarried := Target.carried_of_accept hs
  have honly := hb.mono hcarried.asides hcarried.callees
  have hnames := (Names.spelled_empty.addAll s.vars).open_not_mem
  have hcalls := Row.calls_render hf ht hnames honly target.indentWidth.toNat
  have hconditions := Row.calls_conditions hf ht hnames honly
  rw [hcarried.written, ← Stmt.lines_eq_rows] at hcalls
  rw [hcarried.tested] at hconditions
  refine ⟨s.conditions target (Names.empty.addAll s.vars).of, ?_, hcalls, hconditions, ?_, ?_⟩
  · rw [Target.conditions, hs]
    rfl
  · rw [hcalls]
    exact (hcarried.repeats f).le
  · have hnone : (∀ c ∈ s.conditions target (Names.empty.addAll s.vars).of, calls f c = 0) ↔
        f ∉ b.tested := by
      rw [← List.count_eq_zero, Block.tested, ← hconditions, List.sum_eq_zero_iff_forall_eq_nat,
        List.forall_mem_map]
      rfl
    rw [hcalls, hnone]
    exact (hcarried.repeats f).iff

/-- A loop over as many elements as one function says; each element is what another says, but not
over nine. -/
def pollingLoop : Block :=
  let i : Var := ⟨0, "i", .int32⟩
  let size : Expr := .call .int32 "size" []
  let next : Expr := .call .int32 "next" []
  .loop .spatial ⟨i, ⟨.int 0, size, .int 1⟩, ""⟩
    (.store ⟨1, "a", .int32⟩ [i] (.binary .min next (.int 9)))

theorem calls_emit_pollingLoop : ∃ text conditions,
    Target.portable.emit pollingLoop = .ok text ∧
    Target.portable.conditions pollingLoop = .ok conditions ∧
    calls "next" text = 2 ∧ (conditions.map (calls "next")).sum = 0 ∧
    "next" ∈ pollingLoop.repeated := by
  obtain ⟨text, htext⟩ : ∃ text, Target.portable.emit pollingLoop = .ok text := ⟨_, rfl⟩
  obtain ⟨conditions, hconditions, hwritten, htested, -⟩ :=
    calls_emit (f := "next") (by decide) (Target.callFree_builtin (by decide) _)
      ⟨by decide, by decide⟩ htext
  exact ⟨text, conditions, htext, hconditions, hwritten, htested, by decide⟩

/-- **Calls are repeated**: the element is what the second call of `next` says, after the first was
compared. -/
theorem not_called_once : ¬∀ (f : String) (target : Target) (b : Block) (text : String)
    (conditions : List String), IsName f.toList → target.CallFree f →
    OnlyCalled f b.asides b.callees → target.emit b = .ok text →
    target.conditions b = .ok conditions →
    calls f text = b.callees.count f ∧ ∀ c ∈ conditions, calls f c = 0 := by
  intro h
  obtain ⟨text, htext⟩ : ∃ text, Target.portable.emit pollingLoop = .ok text := ⟨_, rfl⟩
  obtain ⟨conditions, hconditions⟩ : ∃ conditions,
      Target.portable.conditions pollingLoop = .ok conditions := ⟨_, rfl⟩
  have hcount := (h "next" .portable pollingLoop text conditions (by decide)
    (Target.callFree_builtin (by decide) _) ⟨by decide, by decide⟩ htext hconditions).1
  obtain rfl := Except.ok.inj htext
  exact absurd hcount (by decide)

end LoopNest
