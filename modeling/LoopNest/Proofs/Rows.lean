import LoopNest.Block.Printer
import LoopNest.C.Emit
import LoopNest.Proofs.Renaming

/-!
# Blocks as rows

A block is printed row by row, with a row for each statement and one for each closing brace. How
sequences are nested does not show, and the emitter does not see it either: what it checks, the
order in which it meets variables and the lines that it writes go from row to row.

* `Row`, `Block.rows`, `Row.text`: a block as rows, with their depths;
* `C.Row`, `C.Stmt.rows`: a C statement as rows;
* **`Block.lines_eq_rows`**: the printed lines are the rows' texts;
* **`Block.toC_rows`**: the rows of the C statement come from the rows of the block;
* **`Target.emitFunction_congr`**: blocks of the same rows have the same source.
-/

namespace LoopNest

/-! ## Rows of a block -/

/-- A row of a printed block. -/
inductive Row where
  | loop (kind : LoopKind) (index : LoopIndex)
  | alloc (buffer : Var) (shape : List Expr) (storage : String)
  | bind (bindings : List Binding)
  | eval (value : Expr)
  | store (buffer : Var) (indices : List Expr) (value : Expr)
  | close

namespace Row

/-- The text of a row, without its indentation. -/
def text : Row → String
  | loop k i => i.header k
  | alloc v shape storage =>
    "alloc " ++ v.text ++ "[" ++ Expr.listing shape ++ "] " ++ v.type.text ++ " " ++ storage ++
      " \x7b"
  | bind bs => "remap " ++ Expr.commas (bs.map Binding.text) ++ " \x7b"
  | eval e => if Block.isNop (.eval e) then "nop" else "eval " ++ e.text
  | store v is e => "store " ++ v.text ++ "[" ++ Expr.listing is ++ "] = " ++ e.text
  | close => "\x7d"

/-- A row over other variables. -/
def relabel (r : Relabelling) : Row → Row
  | loop k i => loop k (i.relabel r)
  | alloc v shape storage => alloc (r.var v) (shape.map (Expr.relabel r)) storage
  | bind bs => bind (bs.map (Binding.relabel r))
  | eval e => eval (e.relabel r)
  | store v is e => store (r.var v) (is.map (Expr.relabel r)) (e.relabel r)
  | close => close

end Row

namespace Block

/-- The rows of a block with their depths. -/
def rows (depth : Nat) : Block → List (Nat × Row)
  | seq a b => a.rows depth ++ b.rows depth
  | loop k i body => (depth, .loop k i) :: (body.rows (depth + 1) ++ [(depth, .close)])
  | alloc v shape storage body =>
    (depth, .alloc v shape storage) :: (body.rows (depth + 1) ++ [(depth, .close)])
  | bind bs body => (depth, .bind bs) :: (body.rows (depth + 1) ++ [(depth, .close)])
  | eval e => [(depth, .eval e)]
  | store v is e => [(depth, .store v is e)]

/-- **The lines of a block are the texts of its rows.** -/
theorem lines_eq_rows (depth : Nat) (b : Block) :
    b.lines depth = (b.rows depth).map fun p => indented p.1 p.2.text := by
  induction b generalizing depth with
  | seq a b iha ihb => rw [lines, rows, iha, ihb, List.map_append]
  | loop k i body ih | alloc v shape storage body ih | bind bs body ih =>
    rw [lines, rows, ih, List.map_cons, List.map_append]
    rfl
  | eval | store => rfl

theorem rows_add (depth more : Nat) (b : Block) :
    b.rows (depth + more) = (b.rows depth).map fun p => (p.1 + more, p.2) := by
  induction b generalizing depth with
  | seq a b iha ihb => rw [rows, rows, iha, ihb, List.map_append]
  | loop k i body ih | alloc v shape storage body ih | bind bs body ih =>
    rw [rows, rows, Nat.add_right_comm, ih, List.map_cons, List.map_append]
    rfl
  | eval | store => rfl

theorem rows_relabel (r : Relabelling) (depth : Nat) (b : Block) :
    (b.relabel r).rows depth = (b.rows depth).map fun p => (p.1, p.2.relabel r) := by
  induction b generalizing depth with
  | seq a b iha ihb => rw [relabel, rows, rows, iha, ihb, List.map_append]
  | loop k i body ih | alloc v shape storage body ih | bind bs body ih =>
    rw [relabel, rows, rows, ih, List.map_cons, List.map_append]
    rfl
  | eval | store => rfl

end Block

/-! ## Rows of a C statement -/

namespace C

/-- A row of a C statement. -/
inductive Row where
  | loop (head : Loop)
  | array (buffer : Var) (shape : List Expr) (storage : String)
  | consts (bindings : List Binding)
  | eval (value : Expr)
  | assign (buffer : Var) (indices : List Expr) (value : Expr)
  | close

namespace Row

/-- The variables of a row in order of appearance. -/
def vars : Row → List Var
  | loop head => head.var :: (head.first.vars ++ head.bound.vars)
  | array v shape _ => v :: Expr.varsAll shape
  | consts bs => bs.flatMap fun b => b.value.vars ++ [b.var]
  | eval e => e.vars
  | assign v is e => v :: (Expr.varsAll is ++ e.vars)
  | close => []

/-- The row needs a routine. -/
def needs (h : Routine) : Row → Bool
  | loop head => head.first.needs h || head.bound.needs h
  | array _ shape _ => Expr.anyNeeds h shape
  | consts bs => bs.any fun b => b.value.needs h
  | eval e => e.needs h
  | assign _ is e => Expr.anyNeeds h is || e.needs h
  | close => false

/-- The lines of a row at a depth. -/
def lines (target : Target) (names : Var → String) (depth : Nat) : Row → List Line
  | loop head =>
    (if head.kind = .unroll then [plain depth "#pragma unroll"] else []) ++
      [⟨depth, head.header target names, some head.note⟩]
  | array v shape storage =>
    [plain depth "\x7b", ⟨depth + 1, declaration target names v shape, storageNote storage⟩]
  | consts bs =>
    plain depth "\x7b" :: bs.map fun b => plain (depth + 1) (constant target names b)
  | eval e => [plain depth (e.textC target names ++ ";")]
  | assign v is e =>
    [plain depth (names v ++ Expr.brackets (Expr.textsC target names is) ++ " = " ++
      e.textC target names ++ ";")]
  | close => [plain depth "\x7d"]

end Row

namespace Stmt

/-- The rows of a C statement with their depths. -/
def rows (depth : Nat) : Stmt → List (Nat × Row)
  | skip => []
  | seq a b => a.rows depth ++ b.rows depth
  | loop head body => (depth, .loop head) :: (body.rows (depth + 1) ++ [(depth, .close)])
  | array v shape storage body =>
    (depth, .array v shape storage) :: (body.rows (depth + 1) ++ [(depth, .close)])
  | consts bs body => (depth, .consts bs) :: (body.rows (depth + 1) ++ [(depth, .close)])
  | eval e => [(depth, .eval e)]
  | assign v is e => [(depth, .assign v is e)]

theorem vars_eq_rows (depth : Nat) (s : Stmt) :
    s.vars = (s.rows depth).flatMap fun p => p.2.vars := by
  induction s generalizing depth with
  | skip => rfl
  | seq a b iha ihb => rw [vars, rows, iha depth, ihb depth, List.flatMap_append]
  | loop head body ih | array v shape storage body ih | consts bs body ih =>
    rw [vars, rows, ih (depth + 1), List.flatMap_cons, List.flatMap_append]
    simp [Row.vars]
  | eval | assign => simp [vars, rows, Row.vars]

theorem needs_eq_rows (h : Routine) (depth : Nat) (s : Stmt) :
    s.needs h = (s.rows depth).any fun p => p.2.needs h := by
  induction s generalizing depth with
  | skip => rfl
  | seq a b iha ihb => rw [needs, rows, iha depth, ihb depth, List.any_append]
  | loop head body ih | array v shape storage body ih | consts bs body ih =>
    rw [needs, rows, ih (depth + 1), List.any_cons, List.any_append]
    simp [Row.needs]
  | eval | assign => simp [needs, rows, Row.needs]

theorem lines_eq_rows (target : Target) (names : Var → String) (depth : Nat) (s : Stmt) :
    s.lines target names depth = (s.rows depth).flatMap fun p => p.2.lines target names p.1 := by
  induction s generalizing depth with
  | skip => rfl
  | seq a b iha ihb => rw [lines, rows, iha, ihb, List.flatMap_append]
  | loop head body ih | array v shape storage body ih | consts bs body ih =>
    rw [lines, rows, ih, List.flatMap_cons, List.flatMap_append]
    simp [Row.lines]
  | eval | assign => simp [lines, rows, Row.lines]

end Stmt

end C

/-! ## From rows to rows -/

namespace Row

/-- A row as a row of C, or the construct beyond C. Evaluating a literal zero is none at all. -/
def toC (zigzag : Bool) (known : C.Ranks) : Row → Except Construct (List C.Row)
  | loop k i => do
    let head ← i.toC zigzag k
    head.first.checkC known
    head.bound.checkC known
    return [.loop head]
  | alloc v shape storage => do
    Expr.checkAllC known shape
    return [.array v shape storage]
  | bind bs => do
    Expr.checkAllC known (bs.map Binding.value)
    return [.consts bs]
  | eval e =>
    if Block.isNop (.eval e) then return [] else do
      e.checkC known
      return [.eval e]
  | store v is e => do
    known.check v is.length
    Expr.checkAllC known is
    e.checkC known
    return [.assign v is e]
  | close => return [.close]

/-- The ranks of local arrays after a row. -/
def ranks (known : C.Ranks) : Row → C.Ranks
  | alloc v shape _ => (v, shape.length) :: known
  | _ => known

/-- Rows one after the other; a rank stays known. -/
def toCAll (zigzag : Bool) : C.Ranks → List (Nat × Row) → Except Construct (List (Nat × C.Row))
  | _, [] => return []
  | known, p :: ps => do
    let row ← p.2.toC zigzag known
    let rest ← toCAll zigzag (p.2.ranks known) ps
    return row.map (fun c => (p.1, c)) ++ rest

/-- The ranks of local arrays after some rows. -/
def ranksAll (known : C.Ranks) (ps : List (Nat × Row)) : C.Ranks :=
  ps.foldl (fun known p => p.2.ranks known) known

theorem toCAll_append (zigzag : Bool) (known : C.Ranks) (ps qs : List (Nat × Row)) :
    toCAll zigzag known (ps ++ qs) = (do
      let a ← toCAll zigzag known ps
      let b ← toCAll zigzag (ranksAll known ps) qs
      return a ++ b) := by
  induction ps generalizing known with
  | nil => simp [toCAll, ranksAll]
  | cons p ps ih =>
    rw [List.cons_append, toCAll, toCAll, ih, ranksAll, ranksAll, List.foldl_cons]
    simp only [bind_assoc, pure_bind, List.append_assoc]

end Row

namespace Block

theorem ranks_eq_rows (known : C.Ranks) (depth : Nat) (b : Block) :
    b.ranks known = Row.ranksAll known (b.rows depth) := by
  induction b generalizing known depth with
  | seq a b iha ihb =>
    rw [ranks, rows, iha known depth, ihb _ depth, Row.ranksAll, Row.ranksAll, Row.ranksAll,
      List.foldl_append]
  | loop k i body ih | alloc v shape storage body ih | bind bs body ih =>
    rw [ranks, rows, ih _ (depth + 1)]
    simp [Row.ranksAll, Row.ranks]
  | eval | store => rfl

/-- **The rows of the C statement come from the rows of the block.** -/
theorem toC_rows (zigzag : Bool) (known : C.Ranks) (depth : Nat) (b : Block) :
    C.Stmt.rows depth <$> b.toC zigzag known = Row.toCAll zigzag known (b.rows depth) := by
  induction b generalizing known depth with
  | seq a b iha ihb =>
    rw [rows, Row.toCAll_append, ← iha, ← ranks_eq_rows, ← ihb, toC]
    simp only [map_bind, map_pure, bind_map_left, C.Stmt.rows]
  | loop k i body ih | alloc v shape storage body ih | bind bs body ih =>
    rw [toC, rows, Row.toCAll, Row.toCAll_append, Row.toC, ← ih]
    simp only [map_bind, map_pure, bind_map_left, bind_assoc, pure_bind, C.Stmt.rows, Row.toCAll,
      Row.ranks]
    rfl
  | eval e =>
    rw [toC, rows, Row.toCAll, Row.toCAll, Row.toC]
    split <;> simp [C.Stmt.rows]
  | store v is e =>
    rw [toC, rows, Row.toCAll, Row.toCAll, Row.toC]
    simp [C.Stmt.rows]

end Block

/-! ## Sources -/

/-- Two attempts with the same view fail alike, or both succeed with the same view. -/
theorem map_eq_map_cases {ε α β γ : Type} {f : α → γ} {g : β → γ} {x : Except ε α}
    {y : Except ε β} (h : f <$> x = g <$> y) : (∃ e, x = .error e ∧ y = .error e) ∨
      ∃ a b, x = .ok a ∧ y = .ok b ∧ f a = g b := by
  cases x with
  | error e =>
    cases y with
    | error e' => exact .inl ⟨e, rfl, congrArg _ (Except.error.inj h).symm⟩
    | ok b => exact nomatch h
  | ok a =>
    cases y with
    | error e' => exact nomatch h
    | ok b => exact .inr ⟨a, b, rfl, rfl, Except.ok.inj h⟩

theorem C.function_congr {s t : C.Stmt} (h : ∀ depth, s.rows depth = t.rows depth)
    (target : Target) (g : Signature) : function target g s = function target g t := by
  have hvars : s.vars = t.vars := by rw [Stmt.vars_eq_rows 0, h, ← Stmt.vars_eq_rows]
  have hroutines : s.routines = t.routines := by
    rw [Stmt.routines, Stmt.routines]
    simp only [Stmt.needs_eq_rows _ 0, h]
  have hlines : ∀ names, s.lines target names 1 = t.lines target names 1 := fun names => by
    rw [Stmt.lines_eq_rows, h, ← Stmt.lines_eq_rows]
  simp only [function, hvars, hroutines, hlines]

section

variable {b c : Block} (h : b.rows 0 = c.rows 0) (target : Target)

include h

/-- Blocks of the same rows are refused for the same construct or give statements of the same
rows. -/
theorem Target.accept_congr :
    (∃ e, target.accept b = .error e ∧ target.accept c = .error e) ∨
      ∃ s t, target.accept b = .ok s ∧ target.accept c = .ok t ∧
        ∀ depth, s.rows depth = t.rows depth := by
  have hrows : ∀ depth, b.rows depth = c.rows depth := fun depth => by
    rw [← Nat.zero_add depth, Block.rows_add, h, ← Block.rows_add]
  have htoC : ∀ depth, C.Stmt.rows depth <$> b.toC target.supportsZigzag [] =
      C.Stmt.rows depth <$> c.toC target.supportsZigzag [] := fun depth => by
    rw [Block.toC_rows, hrows, ← Block.toC_rows]
  rw [accept, accept]
  rcases map_eq_map_cases (htoC 0) with ⟨e, hb, hc⟩ | ⟨s, t, hb, hc, -⟩
  · rw [hb, hc]
    exact .inl ⟨_, rfl, rfl⟩
  · refine .inr ⟨s, t, by rw [hb]; rfl, by rw [hc]; rfl, fun depth => ?_⟩
    have he := htoC depth
    rw [hb, hc] at he
    exact Except.ok.inj he

/-- **Blocks of the same rows have the same source.** -/
theorem Target.emitFunction_congr (g : Signature) :
    target.emitFunction g b = target.emitFunction g c := by
  rw [emitFunction, emitFunction]
  rcases accept_congr h target with ⟨e, hb, hc⟩ | ⟨s, t, hb, hc, hrows⟩
  · rw [hb, hc]
  · rw [hb, hc]
    exact congrArg (fun text => Except.ok (C.banner target g ++ text))
      (C.function_congr hrows target g)

end

end LoopNest
