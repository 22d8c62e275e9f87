import LoopNest.Proofs.Acceptance
import LoopNest.Proofs.Comments
import LoopNest.Proofs.OpaqueCalls

/-!
# Free-form text in sources

The tag of a loop and the storage class of a local array may be any text. They decide nothing: a
target accepts a block whatever they are, and shows them in comments. Nothing keeps the sign that
closes a comment from standing in one, and what follows it is code.

* `Block.bare`, `Row.bare`, `C.Row.bare`: without free-form text;
* **`Row.toC_bare`**, **`Row.toCAll_bare`**: what is accepted does not hang on it;
* `Target.Plain`, **`Expr.plain_textC`**, **`C.Row.plain_lines`**: code holds no comments;
* **`C.Row.notes_lines`**: comments hold free-form text only;
* **`free_text_commented`**: what sources of blocks that differ in free-form text have in common;
* **`tag_becomes_code`**: a tag that closes its comment.
-/

namespace LoopNest

open C

/-! ## Without free-form text -/

/-- A row without free-form text. -/
def Row.bare : Row → Row
  | loop k i => loop k { i with tag := "" }
  | alloc v shape _ => alloc v shape ""
  | row => row

/-- A row of C without free-form text. -/
def C.Row.bare : C.Row → C.Row
  | loop head => loop { head with tag := "" }
  | array v shape _ => array v shape ""
  | row => row

namespace Block

/-- A block without free-form text. -/
def bare : Block → Block
  | seq a b => seq a.bare b.bare
  | loop k i body => loop k { i with tag := "" } body.bare
  | alloc v shape _ body => alloc v shape "" body.bare
  | bind bs body => bind bs body.bare
  | eval e => eval e
  | store v is e => store v is e

theorem rows_bare (depth : Nat) (b : Block) :
    b.bare.rows depth = (b.rows depth).map fun p => (p.1, p.2.bare) := by
  induction b generalizing depth with
  | seq a b iha ihb => rw [bare, rows, rows, iha, ihb, List.map_append]
  | loop k i body ih | alloc v shape storage body ih | bind bs body ih =>
    rw [bare, rows, rows, ih, List.map_cons, List.map_append]
    rfl
  | eval | store => rfl

/-- The free-form texts in a block. -/
def remarks (b : Block) : List String := (b.rows 0).flatMap fun p => p.2.remarks

end Block

/-! ## What is accepted -/

section

variable (zigzag : Bool) (known : Ranks)

theorem LoopIndex.toC_bare (k : LoopKind) (i : LoopIndex) :
    { i with tag := "" }.toC zigzag k =
      (fun head : C.Loop => { head with tag := "" }) <$> i.toC zigzag k := by
  have hstep : { i with tag := "" }.stepC = i.stepC := rfl
  rw [toC, toC, hstep]
  split
  · rfl
  · simp only [map_bind, map_pure]

/-- **A row is accepted whatever its free-form text.** -/
theorem Row.toC_bare (row : Row) :
    row.bare.toC zigzag known = List.map C.Row.bare <$> row.toC zigzag known := by
  cases row with
  | loop k i =>
    rw [bare, toC, toC, LoopIndex.toC_bare]
    simp only [map_bind, map_pure, bind_map_left]
    rfl
  | eval e =>
    have hbare : (Row.eval e).bare = .eval e := rfl
    rw [hbare, toC]
    split
    · rfl
    · simp only [map_bind, map_pure]
      rfl
  | _ =>
    simp only [bare, toC, map_bind, map_pure]
    rfl

theorem Row.ranks_bare (row : Row) : row.bare.ranks known = row.ranks known := by
  cases row <;> rfl

/-- **Rows are accepted whatever their free-form text.** -/
theorem Row.toCAll_bare (ps : List (Nat × Row)) :
    toCAll zigzag known (ps.map fun p => (p.1, p.2.bare)) =
      List.map (fun c => (c.1, c.2.bare)) <$> toCAll zigzag known ps := by
  induction ps generalizing known with
  | nil => rfl
  | cons p ps ih =>
    rw [List.map_cons, toCAll, toCAll, toC_bare, ranks_bare, ih]
    simp only [map_bind, map_pure, bind_map_left, List.map_append, List.map_map]
    rfl

end

/-- The free-form text of a row is carried over. -/
theorem Row.remarks_toC {zigzag : Bool} {known : Ranks} {row : Row} {cs : List C.Row}
    (h : row.toC zigzag known = .ok cs) : cs.flatMap C.Row.remarks = row.remarks := by
  cases row with
  | loop k i =>
    obtain ⟨l, hl, h⟩ := bind_eq_ok_iff.1 h
    obtain ⟨-, -, h⟩ := bind_eq_ok_iff.1 h
    obtain ⟨-, -, h⟩ := bind_eq_ok_iff.1 h
    obtain rfl := Except.ok.inj h
    obtain ⟨-, s, -, -, rfl⟩ := LoopIndex.toC_eq_ok_iff.1 hl
    rfl
  | alloc | bind =>
    obtain ⟨-, -, h⟩ := bind_eq_ok_iff.1 h
    obtain rfl := Except.ok.inj h
    rfl
  | eval e =>
    rw [toC] at h
    split at h
    · obtain rfl := Except.ok.inj h
      rfl
    · obtain ⟨-, -, h⟩ := bind_eq_ok_iff.1 h
      obtain rfl := Except.ok.inj h
      rfl
  | store v is e =>
    obtain ⟨-, -, h⟩ := bind_eq_ok_iff.1 h
    obtain ⟨-, -, h⟩ := bind_eq_ok_iff.1 h
    obtain ⟨-, -, h⟩ := bind_eq_ok_iff.1 h
    obtain rfl := Except.ok.inj h
    rfl
  | close =>
    obtain rfl := Except.ok.inj h
    rfl

/-- The free-form text of rows is carried over. -/
theorem Row.remarks_toCAll {zigzag : Bool} {known : Ranks} {ps : List (Nat × Row)}
    {cs : List (Nat × C.Row)} (h : toCAll zigzag known ps = .ok cs) :
    (cs.flatMap fun c => c.2.remarks) = ps.flatMap fun p => p.2.remarks := by
  induction ps generalizing known cs with
  | nil =>
    obtain rfl := Except.ok.inj h
    rfl
  | cons p ps ih =>
    obtain ⟨row, hrow, h⟩ := bind_eq_ok_iff.1 h
    obtain ⟨rest, hrest, h⟩ := bind_eq_ok_iff.1 h
    obtain rfl := Except.ok.inj h
    rw [List.flatMap_append, List.flatMap_map, List.flatMap_cons, ih hrest]
    exact congrArg (· ++ _) (remarks_toC hrow)

/-! ## Code -/

/-- The spellings of types hold no comments. -/
structure Target.Plain (target : Target) : Prop where
  index : C.Plain target.indexType
  float16 : C.Plain target.float16Type

/-- The built-in targets have plain spellings. -/
theorem Target.plain_builtin {target : Target} (h : target ∈ builtin) : target.Plain := by
  have hsafe : ∀ t ∈ builtin, (∀ c ∈ t.indexType.toList, isSafe c = true) ∧
      ∀ c ∈ t.float16Type.toList, isSafe c = true := by decide
  obtain ⟨hindex, hfloat⟩ := hsafe target h
  exact ⟨plain_of_safe hindex, plain_of_safe hfloat⟩

theorem Target.Plain.spell {target : Target} (h : target.Plain) (t : ElemType) :
    C.Plain (target.spell t) := by
  cases t with
  | float16 => exact h.float16
  | _ => exact plain_of_safe (by rw [Target.spell]; decide)

/-- A class of characters without the four that are not safe. -/
theorem C.isSafe_of {p : Char → Bool} (hp : ∀ d ∈ ['/', '"', '\'', '\\'], p d = false)
    {c : Char} (h : p c = true) : isSafe c = true := by
  unfold isSafe
  simp only [Bool.and_eq_true, decide_eq_true_eq]
  refine ⟨⟨⟨?_, ?_⟩, ?_⟩, ?_⟩ <;>
  · rintro rfl
    rw [hp _ (by decide)] at h
    exact nomatch h

theorem C.Names.Spelled.plain {n : Names} (h : n.Spelled) (v : Var) : Plain (n.of v) := by
  rw [of, find?]
  cases hfind : n.given.find? fun p => p.1 = v with
  | none => exact plain_empty
  | some p =>
    have hp := h p (List.mem_of_find?_eq_some hfind)
    exact plain_of_safe fun c hc => isSafe_of (by decide) (hp c hc)

theorem Word.plain_text (n : Word) : Plain (text n) :=
  plain_of_safe fun c hc => isSafe_of (p := Text.isSigned) (by decide) ((text_chars n).2 c hc)

theorem Binary64.plain_textC (x : Binary64) : Plain x.textC := by
  rcases x.text_cases with ⟨-, h⟩ | ⟨-, h⟩ | ⟨-, h⟩ | ⟨hshape, h⟩ <;> rw [h]
  · exact plain_of_safe (by decide)
  · exact plain_of_safe (by decide)
  · exact plain_of_safe (by decide)
  · refine Plain.append (plain_of_safe fun c hc => ?_) (plain_of_safe (by decide))
    exact isSafe_of (p := Text.isDecimal) (by decide) (hshape.2.1 c hc)

theorem C.plain_commas {ts : List String} (h : ∀ t ∈ ts, Plain t) : Plain (Expr.commas ts) := by
  have hcomma : Plain ", " := plain_of_safe (by decide)
  induction ts with
  | nil => exact plain_empty
  | cons t ts ih =>
    obtain ⟨ht, hts⟩ := List.forall_mem_cons.1 h
    cases ts with
    | nil => simpa [Expr.commas] using ht
    | cons u us =>
      rw [Expr.commas, String.intercalate_cons_cons, ← Expr.commas]
      exact (ht.append hcomma).append (ih hts)

theorem C.plain_brackets {ts : List String} (h : ∀ t ∈ ts, Plain t) :
    Plain (Expr.brackets ts) := by
  have hopen : Plain "[" := plain_of_safe (by decide)
  have hclose : Plain "]" := plain_of_safe (by decide)
  induction ts with
  | nil => exact plain_empty
  | cons t ts ih =>
    obtain ⟨ht, hts⟩ := List.forall_mem_cons.1 h
    have hcons : Expr.brackets (t :: ts) = "[" ++ t ++ "]" ++ Expr.brackets ts := by
      simp [Expr.brackets]
    rw [hcons]
    exact ((hopen.append ht).append hclose).append (ih hts)

theorem Operator.plain_textC (op : Operator) {l r : String} (hl : Plain l) (hr : Plain r) :
    Plain (op.textC l r) := by
  have hchoice : ∀ sign : String, Plain sign → Plain (choice sign l r) := by
    intro sign hsign
    unfold choice
    apply_rules only [Plain.append, hl, hr, hsign, plain_of_safe] <;> decide
  have hroutine : ∀ name : String, Plain name →
      Plain (name ++ "(" ++ l ++ ", " ++ r ++ ")") := by
    intro name hname
    apply_rules only [Plain.append, hl, hr, hname, plain_of_safe] <;> decide
  have hsign : ∀ sign : String, Plain sign →
      Plain ("(" ++ l ++ " " ++ sign ++ " " ++ r ++ ")") := by
    intro sign hsign
    apply_rules only [Plain.append, hl, hr, hsign, plain_of_safe] <;> decide
  cases op with
  | min | max => exact hchoice _ (plain_of_safe (by decide))
  | floorDiv | floorMod => exact hroutine _ (plain_of_safe (by decide))
  | _ => exact hsign _ (plain_of_safe (by decide))

section

variable {target : Target} {names : Var → String} (hnames : ∀ v, Plain (names v))

include hnames

theorem C.Loop.plain_advance (l : Loop) : Plain (l.advance (names l.var)) := by
  have hname := hnames l.var
  have hstep := l.step.plain_text
  have hnat : ∀ n : Nat, Plain (toString n) := by
    intro n
    refine plain_of_safe fun c hc => ?_
    rw [toList_number] at hc
    exact isSafe_of (by decide) (isNameChar_of_mem_toDigits hc)
  unfold advance
  split_ifs <;> apply_rules only [Plain.append, hname, hstep, hnat, plain_of_safe] <;> decide

variable (ht : target.Plain)

include ht

omit hnames ht in
/-- What holds of expressions holds of a list of them. -/
theorem Expr.plain_textsC_of {es : List Expr}
    (h : ∀ e ∈ es, (∀ f ∈ e.callees, Plain f) → Plain (e.textC target names))
    (hes : ∀ f ∈ es.flatMap callees, Plain f) : ∀ t ∈ textsC target names es, Plain t := by
  rw [List.forall_mem_flatMap] at hes
  induction es with
  | nil => exact List.forall_mem_nil _
  | cons e es ih =>
    obtain ⟨hfirst, hrest⟩ := List.forall_mem_cons.1 h
    obtain ⟨hf, hfs⟩ := List.forall_mem_cons.1 hes
    exact List.forall_mem_cons.2 ⟨hfirst hf, ih hrest hfs⟩

/-- **The text of an expression holds no comment**, if the functions that it calls have plain
names. -/
theorem Expr.plain_textC {e : Expr} (he : ∀ f ∈ e.callees, Plain f) :
    Plain (e.textC target names) := by
  induction e using inductionOn with
  | int n => exact n.plain_text
  | float x => exact x.plain_textC
  | str s => exact plain_quote s
  | var v => exact hnames v
  | binary op a b iha ihb =>
    rw [callees_binary, List.forall_mem_append] at he
    exact op.plain_textC (iha he.1) (ihb he.2)
  | cast t a iha =>
    have ha := iha he
    rw [textC]
    apply_rules only [Plain.append, ha, ht.spell, plain_of_safe] <;> decide
  | load v is ih =>
    rw [callees_load] at he
    exact (hnames v).append (plain_brackets (plain_textsC_of ih he))
  | call t f as ih =>
    rw [callees_call, List.forall_mem_cons] at he
    have hf := he.1
    have hargs := plain_commas (plain_textsC_of ih he.2)
    rw [textC]
    apply_rules only [Plain.append, hf, hargs, plain_of_safe] <;> decide

/-- The texts of expressions hold no comments. -/
theorem Expr.plain_textsC {es : List Expr} (hes : ∀ f ∈ es.flatMap callees, Plain f) :
    ∀ t ∈ textsC target names es, Plain t :=
  plain_textsC_of (fun _ _ => plain_textC hnames ht) hes

theorem C.Loop.plain_header {l : Loop} (hfirst : ∀ f ∈ l.first.callees, Plain f)
    (hbound : ∀ f ∈ l.bound.callees, Plain f) : Plain (l.header target names) := by
  have hname := hnames l.var
  have hfirst := Expr.plain_textC hnames ht hfirst
  have hbound := Expr.plain_textC hnames ht hbound
  have hadvance := l.plain_advance hnames
  have hsign : Plain l.comparison := by
    unfold comparison
    split <;> exact plain_of_safe (by decide)
  unfold header
  apply_rules only [Plain.append, hname, ht.index, hfirst, hbound, hadvance, hsign,
    plain_of_safe] <;>
    decide

/-- **The code of a row holds no comment.** -/
theorem C.Row.plain_lines {row : C.Row} (h : ∀ f ∈ row.callees, Plain f) (depth : Nat) :
    ∀ l ∈ row.lines target names depth, Plain l.code := by
  have hopen : Plain "\x7b" := plain_of_safe (by decide)
  have hclose : Plain "\x7d" := plain_of_safe (by decide)
  have hend : Plain ";" := plain_of_safe (by decide)
  have hpragma : Plain "#pragma unroll" := plain_of_safe (by decide)
  unfold callees at h
  cases row with
  | loop head =>
    simp only [exprs, List.flatMap_cons, List.forall_mem_append] at h
    have hheader := head.plain_header hnames ht h.1 h.2.1
    rw [lines]
    split <;> simp [plain, hpragma, hheader]
  | array v shape storage =>
    have hshape := plain_brackets (Expr.plain_textsC hnames ht h)
    have hcode : Plain (declaration target names v shape) := by
      unfold declaration
      apply_rules only [Plain.append, ht.spell, hnames, hshape, plain_of_safe] <;> decide
    simp [lines, plain, hopen, hcode]
  | consts bs =>
    have hcode : ∀ b ∈ bs, Plain (constant target names b) := by
      intro b hb
      have hvalue := Expr.plain_textC hnames ht fun f hf =>
        h f (List.mem_flatMap.2 ⟨b.value, List.mem_map_of_mem hb, hf⟩)
      unfold constant
      apply_rules only [Plain.append, ht.spell, hnames, hvalue, plain_of_safe] <;> decide
    simpa [lines, plain, hopen] using hcode
  | eval e =>
    simp only [exprs, List.flatMap_singleton] at h
    have hcode := (Expr.plain_textC hnames ht h).append hend
    simpa [lines, plain] using hcode
  | assign v is e =>
    simp only [exprs, List.flatMap_append, List.flatMap_singleton, List.forall_mem_append] at h
    have hindices := plain_brackets (Expr.plain_textsC hnames ht h.1)
    have hvalue := Expr.plain_textC hnames ht h.2
    have hcode : Plain (names v ++ Expr.brackets (Expr.textsC target names is) ++ " = " ++
        e.textC target names ++ ";") := by
      apply_rules only [Plain.append, hnames, hindices, hvalue, plain_of_safe] <;> decide
    simpa [lines, plain] using hcode
  | close => simpa [lines, plain] using hclose

end

/-! ## Comments -/

/-- What is put in front of a text does not close a comment. -/
theorem C.not_closesComment_append {s t : String} (hstar : '*' ∉ s.toList)
    (hback : '\\' ∉ s.toList) (ht : ¬ClosesComment t) : ¬ClosesComment (s ++ t) := by
  unfold ClosesComment at ht ⊢
  rw [String.toList_append, joined_of_backslash_not_mem hback]
  generalize s.toList = cs at hstar
  induction cs with
  | nil => exact ht
  | cons c cs ih =>
    rw [List.mem_cons, not_or] at hstar
    rw [List.cons_append, List.infix_cons_iff, List.cons_prefix_cons]
    exact fun h => h.elim (fun h => hstar.1 h.1) (ih hstar.2)

theorem C.Loop.not_closesComment_note {l : Loop} (h : ¬ClosesComment l.tag) :
    ¬ClosesComment l.note := by
  have hkind : ∀ sep ∈ ["", " "], '*' ∉ (l.kind.text ++ sep).toList ∧
      '\\' ∉ (l.kind.text ++ sep).toList := by
    cases l.kind <;> decide
  unfold note
  split
  · obtain ⟨hstar, hback⟩ := hkind "" (by decide)
    simpa using not_closesComment_append (t := "") hstar hback (by decide)
  · obtain ⟨hstar, hback⟩ := hkind " " (by decide)
    exact not_closesComment_append hstar hback h

/-- **The comments on a row hold its free-form text only.** -/
theorem C.Row.notes_lines {row : C.Row} (h : ∀ s ∈ row.remarks, ¬ClosesComment s)
    (target : Target) (names : Var → String) (depth : Nat) :
    ∀ l ∈ row.lines target names depth, ∀ note ∈ l.note, ¬ClosesComment note := by
  cases row with
  | loop head =>
    have hnote := head.not_closesComment_note (h head.tag (List.mem_singleton_self _))
    rw [lines]
    split <;> simp [plain, hnote]
  | array v shape storage =>
    have hstorage := h storage (List.mem_singleton_self _)
    simp only [lines, plain, storageNote]
    split <;> simp [hstorage]
  | consts bs => simp [lines, plain]
  | eval | assign | close => simp [lines, plain]

/-! ## Sources -/

theorem C.Row.vars_bare (row : C.Row) : row.bare.vars = row.vars := by
  cases row <;> rfl

theorem Row.callees_bare (row : Row) : row.bare.callees = row.callees := by
  cases row <;> rfl

theorem Block.callees_bare (b : Block) : b.bare.callees = b.callees := by
  unfold callees
  rw [rows_bare, List.flatMap_map]
  simp only [Row.callees_bare]

/-- The code of rows of C, without comments. -/
def C.Row.code (target : Target) (names : Var → String) (width : Nat)
    (cs : List (Nat × C.Row)) : List Char :=
  cs.flatMap fun c => (c.2.lines target names c.1).flatMap (Line.indented width)

theorem C.Row.code_bare (target : Target) (names : Var → String) (width : Nat)
    (cs : List (Nat × C.Row)) :
    code target names width (cs.map fun c => (c.1, c.2.bare)) = code target names width cs := by
  have hrow : ∀ (depth : Nat) (row : C.Row),
      (row.bare.lines target names depth).flatMap (Line.indented width) =
        (row.lines target names depth).flatMap (Line.indented width) := by
    intro depth row
    cases row with
    | loop head =>
      have hheader : { head with tag := "" }.header target names = head.header target names := rfl
      simp only [bare, lines, hheader, List.flatMap_append, List.flatMap_singleton]
      rfl
    | _ => rfl
  unfold code
  rw [List.flatMap_map]
  exact List.flatMap_congr fun c _ => hrow c.1 c.2

/-- **Without its comments the source is the code**, if no comment is closed by free-form text. -/
theorem Target.uncommented_lines {target : Target} {b : Block} {s : Stmt} (ht : target.Plain)
    (hs : b.toC target.supportsZigzag [] = .ok s) (hcallees : ∀ f ∈ b.callees, C.Plain f)
    (hremarks : ∀ s ∈ b.remarks, ¬ClosesComment s) (width : Nat) :
    let names := (Names.empty.addAll s.vars).of
    uncommented (Line.render width (s.lines target names 0)) =
      String.ofList (trimmed (Row.code target names width (s.rows 0))) := by
  intro names
  have hnames : ∀ v, C.Plain (names v) := (Names.spelled_empty.addAll s.vars).plain
  have hrows : Row.toCAll target.supportsZigzag [] (b.rows 0) = .ok (s.rows 0) := by
    rw [← Block.toC_rows, hs]
    rfl
  have hcode := (Row.carried_toCAll hrows).callees
  have hnotes := Row.remarks_toCAll hrows
  have hlines := s.lines_eq_rows target names 0
  rw [uncommented_render, hlines, Row.code, List.flatMap_assoc]
  · rw [hlines, List.forall_mem_flatMap]
    intro c hc
    exact Row.plain_lines hnames ht
      (fun f hf => hcallees f (hcode (List.mem_flatMap.2 ⟨c, hc, hf⟩))) c.1
  · rw [hlines, List.forall_mem_flatMap]
    intro c hc
    refine Row.notes_lines (fun r hr => hremarks r ?_) target names c.1
    unfold Block.remarks
    rw [← hnotes]
    exact List.mem_flatMap.2 ⟨c, hc, hr⟩

/-- **Free-form text decides nothing.** Blocks that differ in tags and storage classes only are
refused for the same reason, or both have sources. These are the same but for comments, unless one
of the texts closes its comment. -/
theorem free_text_commented (target : Target) {b b' : Block} (h : b.bare = b'.bare) :
    (∃ e, target.emit b = .error e ∧ target.emit b' = .error e) ∨
    ∃ text text', target.emit b = .ok text ∧ target.emit b' = .ok text' ∧
      (target.Plain → (∀ f ∈ b.callees, C.Plain f) →
        (∀ s ∈ b.remarks ++ b'.remarks, ¬ClosesComment s) →
        uncommented text = uncommented text') := by
  have hrows : ∀ b : Block, (fun s : Stmt => (s.rows 0).map fun c => (c.1, c.2.bare)) <$>
      b.toC target.supportsZigzag [] = Row.toCAll target.supportsZigzag [] (b.bare.rows 0) := by
    intro b
    rw [Block.rows_bare, Row.toCAll_bare, ← Block.toC_rows]
    cases b.toC target.supportsZigzag [] <;> rfl
  have hsame := hrows b
  rw [h, ← hrows b'] at hsame
  rw [target.emit_eq, target.emit_eq]
  rcases map_eq_map_cases hsame with ⟨e, hb, hb'⟩ | ⟨s, s', hb, hb', hbare⟩
  · rw [hb, hb']
    exact .inl ⟨_, rfl, rfl⟩
  · have hvars : s.vars = s'.vars := by
      have hall : ∀ s : Stmt, s.vars =
          ((s.rows 0).map fun c => (c.1, c.2.bare)).flatMap fun c => c.2.vars := by
        intro s
        rw [s.vars_eq_rows 0, List.flatMap_map]
        simp only [Row.vars_bare]
      rw [hall, hbare, ← hall]
    rw [hb, hb']
    refine .inr ⟨_, _, rfl, rfl, fun ht hcallees hremarks => ?_⟩
    obtain ⟨hremarks, hremarks'⟩ := List.forall_mem_append.1 hremarks
    have hcallees' : ∀ f ∈ b'.callees, C.Plain f := by
      rw [← Block.callees_bare, ← h, Block.callees_bare]
      exact hcallees
    rw [Target.uncommented_lines ht hb hcallees hremarks,
      Target.uncommented_lines ht hb' hcallees' hremarks', hvars,
      ← Row.code_bare, hbare, Row.code_bare]

/-- A loop under a tag that fills a local array of a storage class. -/
def tagged (tag storage : String) : Block :=
  let i : Var := ⟨0, "i", .int32⟩
  let t : Var := ⟨1, "t", .float32⟩
  .loop .spatial ⟨i, ⟨.int 0, .int 2, .int 1⟩, tag⟩
    (.alloc t [.int 2] storage (.store t [i] (.call .float32 "next" [])))

theorem free_text_commented_tagged :
    (tagged "threadIdx.x" "shared").bare = (tagged "" "local").bare ∧
    ∃ text text', Target.portable.emit (tagged "threadIdx.x" "shared") = .ok text ∧
      Target.portable.emit (tagged "" "local") = .ok text' ∧ text ≠ text' ∧
      uncommented text = uncommented text' := by
  have hbare : (tagged "threadIdx.x" "shared").bare = (tagged "" "local").bare := rfl
  have hcallees : ∀ f ∈ (tagged "threadIdx.x" "shared").callees, C.Plain f := by
    have hnext : C.Plain "next" := plain_of_safe (by decide)
    exact List.forall_mem_singleton.2 hnext
  have hremarks : ∀ s ∈ (tagged "threadIdx.x" "shared").remarks ++ (tagged "" "local").remarks,
      ¬ClosesComment s := by decide +kernel
  rcases free_text_commented .portable hbare with ⟨e, he, -⟩ | ⟨text, text', ht, ht', hsame⟩
  · exact nomatch he
  · have hportable : Target.portable.Plain := Target.plain_builtin (by decide)
    refine ⟨hbare, text, text', ht, ht', ?_, hsame hportable hcallees hremarks⟩
    obtain rfl := Except.ok.inj ht
    obtain rfl := Except.ok.inj ht'
    decide +kernel

/-- **A tag becomes code**: what follows the sign that closes its comment is a statement of its own.
White space is left out of the comparison. -/
theorem tag_becomes_code : ¬∀ (target : Target) (b b' : Block), b.bare = b'.bare →
    (∃ e e', target.emit b = .error e ∧ target.emit b' = .error e') ∨
    ∃ text text', target.emit b = .ok text ∧ target.emit b' = .ok text' ∧
      (uncommented text).toList.filter (fun c => !c.isWhitespace) =
        (uncommented text').toList.filter fun c => !c.isWhitespace := by
  intro h
  rcases h .portable (tagged "*/ next(); /*" "local") (tagged "" "local") rfl with
    ⟨e, e', he, -⟩ | ⟨text, text', ht, ht', hsame⟩
  · exact nomatch he
  · obtain rfl := Except.ok.inj ht
    obtain rfl := Except.ok.inj ht'
    -- White space aside, one text has three opening parentheses and the other has two.
    have hcount := congrArg (List.count '(') hsame
    rw [List.count_filter (by decide), List.count_filter (by decide)] at hcount
    exact absurd hcount (by decide +kernel)

end LoopNest
